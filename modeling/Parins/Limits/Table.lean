/-
What a call can do to the table. A scan refills the entries it looks at and
removes at most idle, full ones; the call's own source is refilled and charged.
Every live permit is counted in an entry, so a permit always finds its own.
-/
import Parins.Lib.Sweep
import Parins.Limits.Limiter

namespace Parins.Limits
open Net Lib List Option

variable {settings : Settings} {s s' : State} {source k : IpNet} {kind : Kind} {now : Nat} {e : Entry}

/-! ## Settings -/

/-- What validated settings promise. -/
structure Settings.Valid (s : Settings) : Prop where
  rate : s.ratePerSec ≤ 1000000
  burst : 1 ≤ s.burst ∧ s.burst ≤ 1000000
  sources : 1 ≤ s.maxSources
  ipv4 : s.ipv4Prefix ≤ 32
  ipv6 : s.ipv6Prefix ≤ 128

theorem ensureWithin_ok {name range} {low high value : Nat} :
    Settings.ensureWithin name range low high value = .ok () ↔ low ≤ value ∧ value ≤ high := by
  unfold Settings.ensureWithin
  split
  · next h => exact ⟨fun _ => h, fun _ => rfl⟩
  · next h => exact ⟨fun h' => (by cases h'), fun h' => absurd h' h⟩

theorem Settings.valid (h : settings.validate = .ok ()) : settings.Valid := by
  have hthen : ∀ {x y : Except String Unit}, (do x; y) = .ok () → x = .ok () ∧ y = .ok () := by
    intro x y h
    cases x with
    | error _ => cases h
    | ok _ => exact ⟨rfl, h⟩
  obtain ⟨hrate, h⟩ := hthen h
  obtain ⟨hburst, h⟩ := hthen h
  obtain ⟨hsources, h⟩ := hthen h
  obtain ⟨_, h⟩ := hthen h
  obtain ⟨_, h⟩ := hthen h
  obtain ⟨hv4, hv6⟩ := hthen h
  exact ⟨(ensureWithin_ok.mp hrate).2, ensureWithin_ok.mp hburst, (ensureWithin_ok.mp hsources).1,
    (ensureWithin_ok.mp hv4).2, (ensureWithin_ok.mp hv6).2⟩

theorem Settings.Valid.cap_lt (h : settings.Valid) : settings.cap < 2 ^ 64 := by
  have := h.burst.2
  unfold Settings.cap TOKEN
  omega

theorem Settings.Valid.source_some (h : settings.Valid) (peer) : ∃ k, settings.source peer = some k := by
  have hfits : (if peer.canonical.isIpv4 then settings.ipv4Prefix else settings.ipv6Prefix) ≤
      width peer.canonical.isIpv4 := by
    have := h.ipv4
    have := h.ipv6
    cases peer.canonical.isIpv4 <;> simpa [width]
  refine ⟨IpNet.trunc ⟨_, _, hfits⟩, ?_⟩
  unfold Settings.source IpNet.new
  dsimp only
  rw [dif_pos hfits]
  rfl

/-! ## Entries -/

/-- The cast never truncates. -/
theorem refill_eq (h : settings.cap < 2 ^ 64) (e : Entry) (now) :
    e.refill settings now = { e with toBucket := e.toBucket.refill settings.ratePerSec settings.cap now } := by
  unfold Entry.refill Bucket.refill
  split
  · have : min (e.credit + (now - e.updated) * settings.ratePerSec) (settings.burst * TOKEN) < 2 ^ 64 :=
      lt_of_le_of_lt (min_le_right _ _) h
    dsimp only
    rw [Nat.mod_eq_of_lt this]
    rfl
  · rfl

theorem refill_refill (h : settings.cap < 2 ^ 64) (e : Entry) (t t') :
    (e.refill settings t).refill settings t' = e.refill settings (max t t') := by
  simp only [refill_eq h, Bucket.refill_refill]

theorem refill_max_updated (h : settings.cap < 2 ^ 64) (e : Entry) (t) :
    e.refill settings (max t e.updated) = e.refill settings t := by
  simp only [refill_eq h, Bucket.refill_max_updated]

theorem refill_inUse (settings) (e : Entry) (now kind) : (e.refill settings now).inUse kind = e.inUse kind := by
  unfold Entry.refill
  split <;> rfl

theorem idle_parts (h : e.idle settings = true) : (∀ kind, e.inUse kind = 0) ∧ e.credit = settings.cap := by
  simp only [Entry.idle, Bool.and_eq_true, beq_iff_eq] at h
  refine ⟨fun kind => ?_, h.2⟩
  cases kind
  · exact h.1.1
  · exact h.1.2

/-- An idle entry is the one a new source gets. -/
theorem refill_idle (h : settings.cap < 2 ^ 64) (hidle : e.idle settings = true) (hnow : e.updated ≤ now) :
    e.refill settings now = .fresh settings now := by
  obtain ⟨hkinds, hcredit⟩ := idle_parts hidle
  rw [refill_eq h, Bucket.refill_full hcredit, max_eq_right hnow]
  have hq : e.queries = 0 := hkinds .query
  have hc : e.connections = 0 := hkinds .connection
  rw [hq, hc]
  rfl

theorem fresh_refill (settings now) :
    (Entry.fresh settings now).refill settings now = .fresh settings now := if_neg (lt_irrefl now)

def Settings.quota (settings : Settings) : Kind → Nat
  | .query => settings.maxInflight
  | .connection => settings.maxConnections

/-- What a granted charge does to an entry. -/
structure Charged (settings : Settings) (kind : Kind) (e e' : Entry) : Prop where
  updated : e'.updated = e.updated
  inUse : ∀ kind', e'.inUse kind' = e.inUse kind' + if kind' = kind then 1 else 0
  quota : e.inUse kind < settings.quota kind
  credit : e'.credit + (if kind = .query then TOKEN else 0) = e.credit

-- Over any token: with the literal the kernel would count it down.
theorem charge_updated (e : Entry) (token) :
    ({ e with credit := e.credit - token, queries := e.queries + 1 } : Entry).updated = e.updated := rfl

theorem acquire_spec {e' result} (h : e.acquire settings kind = (e', result)) :
    result = .ok () ∧ Charged settings kind e e' ∨ ∃ d, result = .error d ∧ d ≠ .tableFull ∧ e' = e := by
  cases kind with
  | query =>
    by_cases hquota : settings.maxInflight ≤ e.queries
    · have hacquire : e.acquire settings .query = (e, .error .inflight) := if_pos hquota
      obtain ⟨rfl, rfl⟩ := Prod.mk.inj (hacquire.symm.trans h)
      exact .inr ⟨_, rfl, by decide, rfl⟩
    by_cases hrate : e.credit < TOKEN
    · have hacquire : e.acquire settings .query = (e, .error .rate) := (if_neg hquota).trans (if_pos hrate)
      obtain ⟨rfl, rfl⟩ := Prod.mk.inj (hacquire.symm.trans h)
      exact .inr ⟨_, rfl, by decide, rfl⟩
    have hacquire : e.acquire settings .query =
        ({ e with credit := e.credit - TOKEN, queries := e.queries + 1 }, .ok ()) := (if_neg hquota).trans (if_neg hrate)
    obtain ⟨rfl, rfl⟩ := Prod.mk.inj (hacquire.symm.trans h)
    refine .inl ⟨rfl, charge_updated e TOKEN, fun kind' => ?_, Nat.lt_of_not_le hquota, ?_⟩
    · cases kind' <;> rfl
    · rw [if_pos rfl]
      exact Nat.sub_add_cancel (Nat.le_of_not_lt hrate)
  | connection =>
    by_cases hquota : settings.maxConnections ≤ e.connections
    · have hacquire : e.acquire settings .connection = (e, .error .connections) := if_pos hquota
      obtain ⟨rfl, rfl⟩ := Prod.mk.inj (hacquire.symm.trans h)
      exact .inr ⟨_, rfl, by decide, rfl⟩
    have hacquire : e.acquire settings .connection = ({ e with connections := e.connections + 1 }, .ok ()) := if_neg hquota
    obtain ⟨rfl, rfl⟩ := Prod.mk.inj (hacquire.symm.trans h)
    refine .inl ⟨rfl, rfl, fun kind' => ?_, Nat.lt_of_not_le hquota, ?_⟩
    · cases kind' <;> rfl
    · rw [if_neg (by decide)]
      rfl

/-! ## The scan -/

/-- What a scan does to the entry of `k`: nothing, or it looked at it, refilled it and either kept
it or removed it as idle. -/
def Scanned (settings : Settings) (now : Nat) (visited : List IpNet) (s s' : State) (k : IpNet) : Prop :=
  s'.entries.lookup k = s.entries.lookup k ∨
    k ∈ visited ∧ ∃ e, s.entries.lookup k = some e ∧
      (s'.entries.lookup k = some (e.refill settings now) ∨
        s'.entries.lookup k = none ∧ (e.refill settings now).idle settings = true)

theorem reclaim_spec (settings now n) (hswept : Swept s.entries s.sweep) (hn : n ≤ s.sweep.length) :
    ∃ s', s.reclaim settings now n = some s' ∧ Swept s'.entries s'.sweep ∧ s'.size ≤ s.size ∧
      ∀ k, Scanned settings now (s.sweep.take n) s s' k := by
  induction n generalizing s with
  | zero => exact ⟨s, rfl, hswept, le_refl _, fun k => .inl rfl⟩
  | succ n ih =>
    obtain ⟨entries, sweep⟩ := s
    cases sweep with
    | nil => simp at hn
    | cons candidate rest =>
    obtain ⟨e, he⟩ := hswept.mem.mp (mem_cons_self)
    obtain ⟨hfresh, _⟩ := nodup_cons.mp ((Perm.nodup_iff hswept).mpr entries.keys_nodup)
    have hn : n ≤ rest.length := by simpa using hn
    simp only [State.reclaim, he, bind_eq_bind, bind_some]
    split
    · next hidle =>
      refine ⟨_, rfl, hswept.erase, ?_, fun k => ?_⟩
      · show (entries.erase candidate).keys.length ≤ entries.keys.length
        rw [AList.keys_erase]
        exact length_erase_le
      · by_cases hk : k = candidate
        · subst hk
          exact .inr ⟨mem_cons_self, e, he, .inr ⟨AList.lookup_erase _ _, hidle⟩⟩
        · exact .inl (AList.lookup_erase_ne hk)
    · -- Not idle: to the back of the queue, and on.
      obtain ⟨s', hs', hs'swept, hsize, hscanned⟩ :=
        ih (s := ⟨entries.insert candidate (e.refill settings now), rest ++ [candidate]⟩) (hswept.rotate _)
          (by simp; omega)
      refine ⟨s', hs', hs'swept, hsize.trans (keys_insert_held he _).length_eq.le, fun k => ?_⟩
      have htake : (rest ++ [candidate]).take n = rest.take n := by
        rw [take_append_of_le_length hn]
      have hk := hscanned k
      unfold Scanned at hk ⊢
      dsimp only at hk ⊢
      rw [htake] at hk
      by_cases hcand : k = candidate
      · subst hcand
        rw [AList.lookup_insert] at hk
        rcases hk with hk | ⟨hvisited, _⟩
        · exact .inr ⟨mem_cons_self, e, he, .inl hk⟩
        · exact absurd (mem_of_mem_take hvisited) hfresh
      · rw [AList.lookup_insert_ne hcand] at hk
        exact hk.imp_right fun ⟨hvisited, h⟩ => ⟨mem_cons_of_mem _ hvisited, h⟩

/-! ## A call -/

/-- All that a call can do to the table. -/
structure State.Acquires (settings : Settings) (source : IpNet) (kind : Kind) (now : Nat) (s s' : State)
    (result : Except Denied Unit) : Prop where
  swept : Swept s'.entries s'.sweep
  size : s'.size ≤ settings.maxSources
  others : ∀ k, k ≠ source → s'.entries.lookup k = s.entries.lookup k ∨
    s.Scans settings source ∧ Scanned settings now (s.sweep.take RECLAIM_SCAN) s s' k
  own : s.entries.lookup source = none ∧ s'.entries.lookup source = none ∧ result = .error .tableFull ∨
    ∃ e e', (s.entries.lookup source = some e ∨ s.entries.lookup source = none ∧ e = .fresh settings now) ∧
      (e.refill settings now).acquire settings kind = (e', result) ∧ s'.entries.lookup source = some e'

structure State.Enters (settings : Settings) (source : IpNet) (now : Nat) (s m : State) (entered : Bool) : Prop where
  swept : Swept m.entries m.sweep
  size : m.size ≤ settings.maxSources
  others : ∀ k, k ≠ source → m.entries.lookup k = s.entries.lookup k ∨
    s.Scans settings source ∧ Scanned settings now (s.sweep.take RECLAIM_SCAN) s m k
  own : entered = false ∧ s.entries.lookup source = none ∧ m.entries.lookup source = none ∨
    entered = true ∧ ∃ e, (s.entries.lookup source = some e ∨ s.entries.lookup source = none ∧ e = .fresh settings now) ∧
      m.entries.lookup source = some e

theorem enter_spec (hswept : Swept s.entries s.sweep) (hsize : s.size ≤ settings.maxSources) (source now) :
    ∃ m entered, s.enter settings source now = some (m, entered) ∧ s.Enters settings source now m entered := by
  unfold State.enter
  cases hheld : s.entries.lookup source with
  | some e =>
    exact ⟨s, true, rfl, hswept, hsize, fun k _ => .inl rfl, .inr ⟨rfl, e, .inl hheld, hheld⟩⟩
  | none =>
    rw [if_neg (by simp)]
    -- The table after the scan, if there is one.
    obtain ⟨m, hm, hmswept, hmsize, hothers⟩ : ∃ m,
        s.makeRoom settings now = some m ∧ Swept m.entries m.sweep ∧ m.size ≤ s.size ∧ ∀ k,
          m.entries.lookup k = s.entries.lookup k ∨ s.Scans settings source ∧
            Scanned settings now (s.sweep.take RECLAIM_SCAN) s m k := by
      unfold State.makeRoom
      split
      · next hfull =>
        obtain ⟨m, hm, hmswept, hmsize, hscanned⟩ := reclaim_spec settings now _ hswept (min_le_right RECLAIM_SCAN _)
        rw [← take_eq_take_min] at hscanned
        exact ⟨m, hm, hmswept, hmsize, fun k => .inr ⟨⟨hheld, hfull⟩, hscanned k⟩⟩
      · exact ⟨s, rfl, hswept, le_refl _, fun k => .inl rfl⟩
    have hout : m.entries.lookup source = none := by
      rcases hothers source with h | ⟨_, h | ⟨_, e, he, _⟩⟩
      · exact h.trans hheld
      · exact h.trans hheld
      · cases hheld.symm.trans he
    simp only [hm, bind_eq_bind, bind_some]
    split
    · exact ⟨m, false, rfl, hmswept, hmsize.trans hsize, fun k _ => hothers k, .inl ⟨rfl, hheld, hout⟩⟩
    · next hroom =>
      refine ⟨_, true, rfl, hmswept.add hout _, ?_, fun k hk => ?_,
        .inr ⟨rfl, _, .inr ⟨hheld, rfl⟩, AList.lookup_insert _⟩⟩
      · show (m.entries.insert source _).keys.length ≤ settings.maxSources
        rw [keys_insert_new hout]
        have : m.entries.keys.length ≤ s.size := hmsize
        have : m.entries.keys.length ≠ settings.maxSources := hroom
        simp only [length_cons]
        omega
      · unfold Scanned
        rw [AList.lookup_insert_ne hk]
        exact hothers k

theorem acquire_acquires (hswept : Swept s.entries s.sweep) (hsize : s.size ≤ settings.maxSources) (source kind now) :
    ∃ s' result, s.acquire settings source kind now = some (s', result) ∧
      s.Acquires settings source kind now s' result := by
  obtain ⟨m, entered, hm, henters⟩ := enter_spec hswept hsize source now
  unfold State.acquire
  simp only [hm, bind_eq_bind, bind_some]
  rcases henters.own with ⟨rfl, hbefore, hafter⟩ | ⟨rfl, e, hbefore, hafter⟩
  · exact ⟨m, .error .tableFull, rfl, henters.swept, henters.size, henters.others, .inl ⟨hbefore, hafter, rfl⟩⟩
  · rcases hacquire : (e.refill settings now).acquire settings kind with ⟨e', result⟩
    simp only [if_true, hafter, bind_some, hacquire]
    refine ⟨_, result, rfl, henters.swept.update hafter e',
      (keys_insert_held hafter e').length_eq.le.trans henters.size, fun k hk => ?_,
      .inr ⟨e, e', hbefore, hacquire, AList.lookup_insert _⟩⟩
    unfold Scanned
    rw [AList.lookup_insert_ne hk]
    exact henters.others k hk

end Parins.Limits
