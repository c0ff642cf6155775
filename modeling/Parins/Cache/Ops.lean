/-
The operations of a cache as events of a run, and what each of them does to its
shards. From here on a step of the cache is known by these specifications: what
a lookup, an admission, an invalidation and the parts of a restore do.
-/
import Parins.Cache.Steps
import Parins.Cache.Restore
import Parins.Lib.Runs

namespace Parins.Cache
open Net Lib

/-! ## Events -/

/-- The last handle on an entry that left the indexes goes (`Drop for Entry`). -/
def Partition.release (p : Partition) (charge : Nat) : Partition :=
  if charge ∈ p.held then { p with held := p.held.erase charge, charged := p.charged - charge } else p

def Shard.release (s : Shard) (negative : Bool) (charge : Nat) : Shard :=
  { s with partitions := Function.update s.partitions negative ((s.partitions negative).release charge) }

def release (c : Cache) (i : Nat) (negative : Bool) (charge : Nat) : Cache :=
  { c with shards := c.shards.modify i fun s => s.release negative charge }

inductive Op where
  | lookup (query : SingleQuery) (outgoing : Option ClientSubnet) (allowStale : Bool)
  | peek (query : SingleQuery) (outgoing : Option ClientSubnet) (allowStale : Bool)
  | insert (query : SingleQuery) (response : Message) (scope : Scope) (epoch : Nat)
  | insertRefresh (query : SingleQuery) (response : Message) (scope : Scope) (epoch : Nat)
  | insertFailure (query : SingleQuery) (response : Message) (scope : Scope) (epoch : Nat) (failure : Failure)
  | admitRestored (query : SingleQuery) (response : Message) (scope : Scope) (epoch : Nat) (restore : Restore)
  | invalidate (name : Option Name) (kind : Option RecordType) (scope : Option Scope)
  | restoreSnapshot (call : RestoreCall) (cancelled : Bool) (bytes : Bytes)
  /-- A reader drops an entry that is no longer indexed. -/
  | release (shard : Nat) (negative : Bool) (charge : Nat)

/-- An operation, when it happens, and which entries readers hold meanwhile. -/
structure Event where
  now : Nat
  pinned : Nat → Nat → Bool := fun _ _ => false
  op : Op

/-- The cache after an event; `none` when the code would panic. -/
def step (P : Platform) (C : Codec) (c : Cache) (ev : Event) : Option Cache :=
  match ev.op with
  | .lookup query outgoing allowStale =>
    (c.lookupWithDecision P ev.pinned query outgoing ev.now allowStale).map Prod.fst
  | .peek query outgoing allowStale => (c.peek P ev.pinned query outgoing ev.now allowStale).map Prod.fst
  | .insert query response scope epoch =>
    (c.insertDecisionIfEpoch P ev.pinned query response scope ev.now epoch).map Prod.fst
  | .insertRefresh query response scope epoch =>
    (c.insertRefreshIfEpoch P ev.pinned query response scope ev.now epoch).map Prod.fst
  | .insertFailure query response scope epoch failure =>
    (c.insertFailureIfEpoch P ev.pinned query response scope ev.now epoch failure).map Prod.fst
  | .admitRestored query response scope epoch restore =>
    (c.admitAnswer P ev.pinned query response scope ev.now epoch (.restore restore)).map Prod.fst
  | .invalidate name kind scope => (c.invalidate ev.pinned name kind scope).map Prod.fst
  | .restoreSnapshot call cancelled bytes =>
    (restoreCleanSnapshot P C c { call with now := ev.now } cancelled bytes).map Prod.fst
  | .release i negative charge => some (c.release i negative charge)

/-! ## The state of a cache -/

variable {c c' c'' : Cache} {e x : Entry} {i : Nat} {key : Key}

def Holds (c : Cache) (i : Nat) (e : Entry) : Prop := ∃ s, c.shards[i]? = some s ∧ e ∈ s.entries

/-- Every shard is in order, holds only entries whose keys hash to it, and has its part of the
budgets. -/
structure Wf (c : Cache) : Prop where
  variants : 0 < c.config.maxVariants
  count : c.shards.length = shardCount c.config
  shards : ∀ (i : Nat) (s : Shard), c.shards[i]? = some s → s.Wf c.config.maxVariants
  homed : ∀ i e, c.Holds i e → c.shardOf e.key = i
  maxEntries : ∀ (i : Nat) (s : Shard), c.shards[i]? = some s → ∀ negative,
    (s.partitions negative).maxEntries = portion (shardCount c.config) ((budgets c.config).entries negative) i
  maxBytes : ∀ (i : Nat) (s : Shard), c.shards[i]? = some s → ∀ negative,
    (s.partitions negative).maxBytes = portion (shardCount c.config) ((budgets c.config).bytes negative) i

theorem shardCount_pos (config) : 0 < shardCount config := by
  unfold shardCount
  dsimp only
  omega

theorem Wf.home (hwf : c.Wf) (key) : ∃ s, c.shards[c.shardOf key]? = some s := by
  have hlt : c.shardOf key < c.shards.length := by
    refine Nat.mod_lt _ ?_
    rw [hwf.count]
    exact shardCount_pos _
  exact ⟨_, List.getElem?_eq_getElem hlt⟩

structure Frame (c c' : Cache) : Prop where
  config : c'.config = c.config
  hasher : c'.hasher = c.hasher
  rules : c'.rules = c.rules
  length : c'.shards.length = c.shards.length

/-- Each shard of `c` has become that of `c'`, as `R` says. -/
structure Each (c c' : Cache) (R : Nat → Shard → Shard → Prop) : Prop where
  frame : c.Frame c'
  shards : ∀ i s, c.shards[i]? = some s → ∃ s', c'.shards[i]? = some s' ∧ R i s s'

/-- A shard is in order after a change that lets in only entries it is home to. -/
def Shard.Moves (maxVariants : Nat) (home : Key → Prop) (s s' : Shard) : Prop :=
  s'.Wf maxVariants ∧ ∃ gone new, s.Change s' gone new ∧ ∀ e, new = some e → home e.key

theorem Frame.refl (c : Cache) : c.Frame c := ⟨rfl, rfl, rfl, rfl⟩

theorem Frame.trans (h1 : c.Frame c') (h2 : c'.Frame c'') : c.Frame c'' :=
  ⟨h2.config.trans h1.config, h2.hasher.trans h1.hasher, h2.rules.trans h1.rules, h2.length.trans h1.length⟩

theorem Frame.shardOf (h : c.Frame c') (key) : c'.shardOf key = c.shardOf key := by
  rw [Cache.shardOf, Cache.shardOf, h.hasher, h.length]

theorem Frame.policy (h : c.Frame c') (key name) : c'.policy key name = c.policy key name := by
  rw [Cache.policy, Cache.policy, h.config, h.rules]

variable {s' : Shard}

theorem Frame.before (h : c.Frame c') (hs : c'.shards[i]? = some s') : ∃ s, c.shards[i]? = some s := by
  have hlt : i < c.shards.length := h.length ▸ (List.getElem?_eq_some_iff.mp hs).1
  exact ⟨_, List.getElem?_eq_getElem hlt⟩

variable {R : Nat → Shard → Shard → Prop}

theorem Each.of (h : c.Each c' R) (hs : c'.shards[i]? = some s') : ∃ s, c.shards[i]? = some s ∧ R i s s' := by
  obtain ⟨s, hc⟩ := h.frame.before hs
  obtain ⟨s'', hc', hR⟩ := h.shards i s hc
  cases hs.symm.trans hc'
  exact ⟨s, hc, hR⟩

theorem Each.keeps {I : Shard → Prop} (h : c.Each c' R) (hc : ∀ (i : Nat) (s : Shard), c.shards[i]? = some s → I s)
    (hR : ∀ i s s', R i s s' → I s → I s') : ∀ (i : Nat) (s' : Shard), c'.shards[i]? = some s' → I s' := by
  intro i s' hs'
  obtain ⟨s, hs, hr⟩ := h.of hs'
  exact hR i s s' hr (hc i s hs)

theorem Each.mono {R'} (h : c.Each c' R)
    (hR : ∀ i s s', c.shards[i]? = some s → R i s s' → R' i s s') : c.Each c' R' where
  frame := h.frame
  shards i s hs := by
    obtain ⟨s', hs', hr⟩ := h.shards i s hs
    exact ⟨s', hs', hR i s s' hs hr⟩

theorem Each.wf (h : c.Each c' R) (hwf : c.Wf) (hR : ∀ i (s s' : Shard), c.shards[i]? = some s → R i s s' →
      s.Moves c.config.maxVariants (fun key => c.shardOf key = i) s') : c'.Wf := by
  have hmoves : ∀ {i} {s' : Shard}, c'.shards[i]? = some s' → ∃ s : Shard, c.shards[i]? = some s ∧
      s.Moves c.config.maxVariants (fun key => c.shardOf key = i) s' := by
    intro i s' hs'
    obtain ⟨s, hs, hr⟩ := h.of hs'
    exact ⟨s, hs, hR i s s' hs hr⟩
  have hconfig := h.frame.config
  refine ⟨hconfig ▸ hwf.variants, ?_, fun i s' hs' => ?_, ?_, fun i s' hs' part => ?_, fun i s' hs' part => ?_⟩
  · rw [h.frame.length, hwf.count, hconfig]
  · obtain ⟨s, _, hok, _⟩ := hmoves hs'
    exact hconfig ▸ hok
  · rintro i e ⟨s', hs', he⟩
    obtain ⟨s, hs, _, gone, new, hch, hnew⟩ := hmoves hs'
    rw [h.frame.shardOf]
    rcases hch.mem_iff.mp he with hn | ⟨he, _⟩
    · exact hnew e hn
    · exact hwf.homed i e ⟨s, hs, he⟩
  · obtain ⟨s, hs, _, gone, new, hch, _⟩ := hmoves hs'
    rw [hch.maxEntries, hwf.maxEntries i s hs, hconfig]
  · obtain ⟨s, hs, _, gone, new, hch, _⟩ := hmoves hs'
    rw [hch.maxBytes, hwf.maxBytes i s hs, hconfig]

def Only (home : Nat) (R : Shard → Shard → Prop) (i : Nat) (s s' : Shard) : Prop :=
  if i = home then R s s' else s' = s

theorem Each.recorded (h : c.Each c' R) (diagnostics) : c.Each { c' with diagnostics } R :=
  ⟨⟨h.frame.config, h.frame.hasher, h.frame.rules, h.frame.length⟩, h.shards⟩

variable {α : Type}

theorem withShard_spec {f} {R : α → Shard → Shard → Prop} (hwf : c.Wf)
    (key : Key) (hf : ∀ l : Locked, c.shards[c.shardOf key]? = some l.shard →
      ∃ l' a, f l = some (l', a) ∧ R a l.shard l'.shard) :
    ∃ c' a, c.withShard key f = some (c', a) ∧ c'.epoch = c.epoch ∧ c.Each c' (Only (c.shardOf key) (R a)) := by
  obtain ⟨s, hs⟩ := hwf.home key
  obtain ⟨l', a, hl', hR⟩ := hf ⟨s, c.refreshUseful, c.refreshUnused⟩ hs
  refine ⟨c.unlock (c.shardOf key) l', a, ?_, rfl, ⟨rfl, rfl, rfl, List.length_set⟩, fun i s' hs' => ?_⟩
  · simp only [Cache.withShard, lock, hs, Option.map_some, hl', bind, Option.bind]
  · by_cases hi : i = c.shardOf key
    · subst hi
      cases hs.symm.trans hs'
      refine ⟨l'.shard, ?_, by rwa [Only, if_pos rfl]⟩
      rw [unlock, List.getElem?_set_self (List.getElem?_eq_some_iff.mp hs).1]
    · refine ⟨s', ?_, by rw [Only, if_neg hi]⟩
      rw [unlock, List.getElem?_set_ne (Ne.symm hi), hs']

theorem withShard_ensures {f : Locked → Option (Locked × α)} {R : α → Shard → Shard → Prop}
    {G : Cache → α → Prop} (hwf : c.Wf) (key : Key)
    (hf : ∀ l : Locked, c.shards[c.shardOf key]? = some l.shard → ∃ l' a, f l = some (l', a) ∧ R a l.shard l'.shard)
    (hG : ∀ c' a, c'.epoch = c.epoch → c.Each c' (Only (c.shardOf key) (R a)) → G c' a) :
    ∃ c' a, c.withShard key f = some (c', a) ∧ G c' a := by
  obtain ⟨c', a, hc', hepoch, heach⟩ := withShard_spec hwf key hf
  exact ⟨c', a, hc', hG c' a hepoch heach⟩

theorem withShard_cases {f} {a : α} (h : c.withShard key f = some (c', a)) :
    ∃ s l', c.shards[c.shardOf key]? = some s ∧ f ⟨s, c.refreshUseful, c.refreshUnused⟩ = some (l', a) ∧
      c' = c.unlock (c.shardOf key) l' := by
  simp only [Cache.withShard, bind, Option.bind_eq_some_iff, Prod.exists] at h
  obtain ⟨l, hl, l', a', hl', heq⟩ := h
  obtain ⟨s, hs, rfl⟩ := Option.map_eq_some_iff.mp hl
  cases heq
  exact ⟨s, l', hs, hl', rfl⟩

variable {s : Shard} {l : Locked}

theorem unlock_getElem? (hs : c.shards[i]? = some s) : (c.unlock i l).shards[i]? = some l.shard := by
  rw [unlock, List.getElem?_set_self (List.getElem?_eq_some_iff.mp hs).1]

theorem unlock_each {R} (hs : c.shards[i]? = some s)
    (hrefl : ∀ s, R s s) (hR : R s l.shard) : c.Each (c.unlock i l) fun _ => R := by
  refine ⟨⟨rfl, rfl, rfl, List.length_set⟩, fun j s0 hj => ?_⟩
  by_cases hij : i = j
  · subst hij
    cases hs.symm.trans hj
    exact ⟨l.shard, unlock_getElem? hs, hR⟩
  · exact ⟨s0, by rw [unlock, List.getElem?_set_ne hij, hj], hrefl s0⟩

theorem withShard_each {R} {f : Locked → Option (Locked × α)} {a : α}
    (h : c.withShard key f = some (c', a)) (hrefl : ∀ s, R s s)
    (hf : ∀ l l' : Locked, c.shards[c.shardOf key]? = some l.shard → f l = some (l', a) → R l.shard l'.shard) :
    c.Each c' fun _ => R := by
  obtain ⟨s, l', hs, hl', rfl⟩ := withShard_cases h
  exact unlock_each hs hrefl (hf _ l' hs hl')

theorem forShards_spec {f}
    (hf : ∀ i (l : Locked), c.shards[i]? = some l.shard → ∃ l', f i l = some l' ∧ R i l.shard l'.shard) :
    ∃ c', c.forShards f = some c' ∧ c'.epoch = c.epoch ∧ c.Each c' R := by
  -- After `k` passes the first `k` shards have changed and the others have not.
  have hpass : ∀ k ≤ c.shards.length, ∃ c', (List.range k).foldlM (fun c i => do
      let l ← lock c i
      let l ← f i l
      some (c.unlock i l)) c = some c' ∧ c'.epoch = c.epoch ∧
      c.Each c' fun i s s' => if i < k then R i s s' else s' = s := by
    intro k hk
    induction k with
    | zero => exact ⟨c, rfl, rfl, .refl c, fun i s hs => ⟨s, hs, by simp⟩⟩
    | succ k ih =>
      obtain ⟨c1, h1, hepoch, heach⟩ := ih (by omega)
      obtain ⟨s1, hs1, hsame⟩ := heach.shards k _ (List.getElem?_eq_getElem (by omega))
      rw [if_neg (by omega)] at hsame
      subst hsame
      obtain ⟨l', hl', hR⟩ := hf k ⟨_, c1.refreshUseful, c1.refreshUnused⟩ (List.getElem?_eq_getElem (by omega))
      refine ⟨c1.unlock k l', ?_, hepoch, ⟨heach.frame.config, heach.frame.hasher, heach.frame.rules, ?_⟩,
        fun i s hs => ?_⟩
      · rw [List.range_succ, List.foldlM_append, h1]
        simp only [List.foldlM_cons, List.foldlM_nil, lock, hs1, Option.map_some, hl', bind, Option.bind, pure]
      · rw [unlock, List.length_set, heach.frame.length]
      · obtain ⟨s', hs', hr⟩ := heach.shards i s hs
        by_cases hi : i = k
        · subst hi
          cases hs.symm.trans (List.getElem?_eq_getElem (by omega))
          refine ⟨l'.shard, ?_, by rwa [if_pos (by omega)]⟩
          rw [unlock, List.getElem?_set_self (List.getElem?_eq_some_iff.mp hs1).1]
        · refine ⟨s', by rw [unlock, List.getElem?_set_ne (Ne.symm hi), hs'], ?_⟩
          simpa [show i < k + 1 ↔ i < k by omega] using hr
  obtain ⟨c', hc', hepoch, heach⟩ := hpass c.shards.length le_rfl
  refine ⟨c', hc', hepoch, heach.mono fun i s s' hs hr => ?_⟩
  rwa [if_pos (List.getElem?_eq_some_iff.mp hs).1] at hr

/-! ## Lookups -/

/-- The shard is in order, and what it lost satisfies `p`. -/
def Shard.Loses (maxVariants : Nat) (p : Entry → Prop) (s s' : Shard) : Prop :=
  s'.Wf maxVariants ∧ ∃ gone, s.Change s' gone none ∧ s'.sharing = s.sharing ∧ ∀ x, gone x = true → p x

variable {maxVariants : Nat}

theorem Shard.Wf.loses (hwf : s.Wf maxVariants) (p) :
    s.Loses maxVariants p s := ⟨hwf, _, (Shard.Less.refl s).change, rfl, by simp⟩

variable {home : Key → Prop}

theorem Shard.Loses.moves {p} (h : s.Loses maxVariants p s') : s.Moves maxVariants home s' := by
  obtain ⟨hwf, gone, hch, _⟩ := h
  exact ⟨hwf, gone, none, hch, by simp⟩

theorem Wf.idle (hwf : c.Wf) (p) : c.Each c fun _ => Shard.Loses c.config.maxVariants p :=
  ⟨.refl c, fun i s hs => ⟨s, hs, (hwf.shards i s hs).loses p⟩⟩

/-- **Lookup.** A hit is the reply from a usable entry of the key. -/
theorem lookupInner_spec (P pinned query)
    (outgoing : Option ClientSubnet) (now : Nat) (allowStale observe : Bool) (hwf : c.Wf) :
    ∃ c' result, c.lookupInner P pinned query outgoing now allowStale observe = some (c', result) ∧
      c'.epoch = c.epoch ∧
      c.Each c' (fun _ => Shard.Loses c.config.maxVariants fun x => x.expired now = true) ∧
      ∀ hit, result.hit = some hit → ∃ key s e hits, Key.of query = some key ∧
        c.shards[c.shardOf key]? = some s ∧ e ∈ s.candidates key outgoing now allowStale ∧
        result = e.reply P c.config query hits now := by
  have hidle := hwf.idle fun x => x.expired now = true
  have hbypassed : ∀ n, c.Each { c with bypasses := n } (fun _ => Shard.Loses c.config.maxVariants
      fun x => x.expired now = true) := fun n => ⟨⟨rfl, rfl, rfl, rfl⟩, hidle.shards⟩
  unfold Cache.lookupInner
  split
  · exact ⟨_, _, rfl, rfl, hbypassed _, fun hit h => nomatch h⟩
  · next key hkey =>
    split
    · exact ⟨_, _, rfl, rfl, hbypassed _, fun hit h => nomatch h⟩
    · obtain ⟨c', found, hc', hepoch, heach⟩ := withShard_spec (R := fun found s s' =>
          s.Loses c.config.maxVariants (fun x => x.expired now = true) s' ∧
          ∀ e hits, found = some (e, hits) → e ∈ s.candidates key outgoing now allowStale) hwf key
          (f := fun l => l.lookup (pinned (c.shardOf key)) key outgoing now allowStale observe) (by
        intro l hl
        obtain ⟨l', found, gone, hl', hwf', hch, hsharing, hgone, hfound⟩ := lookup_spec (pinned (c.shardOf key))
          (hwf.shards _ _ hl) key outgoing now allowStale observe
        exact ⟨l', found, hl', ⟨hwf', gone, hch, hsharing, hgone⟩, hfound⟩)
      have hloses : c.Each c' (fun _ => Shard.Loses c.config.maxVariants fun x => x.expired now = true) := by
        refine heach.mono fun i s s' hs hr => ?_
        unfold Only at hr
        split at hr
        · exact hr.1
        · subst hr
          exact (hwf.shards i s' hs).loses _
      simp only [hc', bind, Option.bind]
      cases found with
      | none => exact ⟨c', _, rfl, hepoch, hloses, fun hit h => nomatch h⟩
      | some hit =>
        obtain ⟨e, hits⟩ := hit
        obtain ⟨s, hs⟩ := hwf.home key
        obtain ⟨s', _, hr⟩ := heach.shards _ s hs
        rw [Only, if_pos rfl] at hr
        refine ⟨c', _, rfl, hepoch, hloses, fun hit _ => ⟨key, s, e, hits, hkey, hs, hr.2 e hits rfl, ?_⟩⟩
        rw [hloses.frame.config]

/-! ## Admissions -/

/-- What `Cache::admit` comes to. Nothing but counters changes when the answer is refused before
the lock or for its epoch; otherwise the shard of its key takes it. -/
inductive Admits (P : Platform) (c c' : Cache) (query : SingleQuery) (response : Message) (scope : Scope)
    (now epoch : Nat) (origin : Origin) : Prop where
  | refused : c.Each c' (fun _ s s' => s.SameButStats s') →
      Admits P c c' query response scope now epoch origin
  | answered {key : Key} : Key.of query = some key → epoch = c.epoch → origin.restoring = false →
      c.Each c' (Only (c.shardOf key) fun s s' => ∃ gone new,
        s.Answered P c.config (c.offer P query response scope origin key) now gone new s') →
      Admits P c c' query response scope now epoch origin
  | restored {key : Key} {r : Restore} : Key.of query = some key → epoch = c.epoch → origin = .restore r →
      c.Each c' (Only (c.shardOf key) fun s s' =>
        s.Restored P c.config (c.offer P query response scope origin key) now r s') →
      Admits P c c' query response scope now epoch origin

/-- What `Cache::admit_failure` comes to. -/
inductive Fails (P : Platform) (c c' : Cache) (query : SingleQuery) (scope : Scope) (now epoch : Nat) : Prop where
  | refused : c.Each c' (fun _ s s' => s.SameButStats s') →
      Fails P c c' query scope now epoch
  | offered {f : FailureOffer} : Key.of query = some f.key → f.scope = scope → epoch = c.epoch →
      c.Each c' (Only (c.shardOf f.key) fun s s' => ∃ gone new, s.Failed P c.config now f gone new s') →
      Fails P c c' query scope now epoch

theorem Shard.SameButStats.refl (s : Shard) : s.SameButStats s := ⟨rfl, fun _ => ⟨_, rfl⟩, rfl, rfl, rfl, rfl, rfl⟩

theorem Each.same (c : Cache) : c.Each c fun _ s s' => s.SameButStats s' :=
  ⟨.refl c, fun _ s hs => ⟨s, hs, .refl s⟩⟩

theorem Each.stats (h : c.Each c' (Only i fun s s' => s.SameButStats s')) : c.Each c' fun _ s s' => s.SameButStats s' := by
  refine h.mono fun j s s' _ hr => ?_
  unfold Only at hr
  split at hr
  · exact hr
  · exact hr ▸ .refl s

variable {d : StoreDecision} {P : Platform} {query : SingleQuery} {now epoch : Nat} {scope : Scope}
  {response : Message} {origin : Origin}

theorem Admits.recorded (h : c.Admits P c' query response scope now epoch origin) (diagnostics) :
    c.Admits P { c' with diagnostics } query response scope now epoch origin := by
  cases h with
  | refused heach => exact .refused (heach.recorded _)
  | answered hkey hepoch horigin heach => exact .answered hkey hepoch horigin (heach.recorded _)
  | restored hkey hepoch horigin heach => exact .restored hkey hepoch horigin (heach.recorded _)

theorem Fails.recorded (h : c.Fails P c' query scope now epoch) (diagnostics) :
    c.Fails P { c' with diagnostics } query scope now epoch := by
  cases h with
  | refused heach => exact .refused (heach.recorded _)
  | offered hkey hscope hepoch heach => exact .offered hkey hscope hepoch (heach.recorded _)

theorem admits_spec (P : Platform) (pinned : Nat → Nat → Bool) (query : SingleQuery) (response : Message)
    (scope : Scope) (now epoch : Nat) (origin : Origin) (hwf : c.Wf) :
    ∃ c' d, c.admitAnswer P pinned query response scope now epoch origin = some (c', d) ∧ c'.epoch = c.epoch ∧
      c.Admits P c' query response scope now epoch origin := by
  unfold Cache.admitAnswer
  split
  · exact ⟨c, _, rfl, rfl, .refused (.same c)⟩
  next key hkey =>
  split
  · exact ⟨c, _, rfl, rfl, .refused (.same c)⟩
  split
  · exact ⟨c, _, rfl, rfl, .refused (.same c)⟩
  dsimp only
  by_cases hepoch : epoch = c.epoch
  · simp only [ne_eq, hepoch, not_true_eq_false, if_false]
    cases horigin : origin.restoring with
    | false =>
      refine withShard_ensures hwf key (R := fun _ s s' => ∃ gone new,
        s.Answered P c.config (c.offer P query response scope origin key) now gone new s') (fun l hl => ?_)
        fun c' d he heach => ⟨he, .answered hkey rfl horigin heach⟩
      obtain ⟨l', d, gone, new, hl', hans⟩ := admitAnswer_spec P c.config (pinned (c.shardOf key))
        (c.offer P query response scope origin key) now (hwf.shards _ _ hl) hwf.variants horigin
      exact ⟨l', d, hl', gone, new, hans⟩
    | true =>
      obtain ⟨r, hr⟩ : ∃ r, origin = .restore r := by
        cases origin with
        | restore r => exact ⟨r, rfl⟩
        | answer | refresh => cases horigin
      refine withShard_ensures hwf key (R := fun _ s s' =>
        s.Restored P c.config (c.offer P query response scope origin key) now r s') (fun l hl => ?_)
        fun c' d he heach => ⟨he, .restored hkey rfl hr heach⟩
      exact admitRestored_spec P c.config (pinned (c.shardOf key))
        (c.offer P query response scope origin key) now (hwf.shards _ _ hl) hwf.variants hr
  · simp only [ne_eq, hepoch, not_false_eq_true, if_true]
    refine withShard_ensures hwf key (R := fun _ s s' => s.SameButStats s') (fun l _ => ⟨_, _, rfl, ?_⟩)
      fun c' d he heach => ⟨he, .refused heach.stats⟩
    split
    · exact .refl _
    · exact reject_same l

variable {pinned : Nat → Nat → Bool}

/-- What `Cache::admit` was: a refusal before the lock, or a step under it. -/
theorem admitAnswer_cases (h : c.admitAnswer P pinned query response scope now epoch origin = some (c', d)) :
    (c' = c ∧ d.admitted = false) ∨ ∃ key, Key.of query = some key ∧
      (c.policy key query.question.name).bypass = false ∧ rejection response = none ∧
      c.withShard key (fun l => if epoch ≠ c.epoch then
        some (if origin.restoring then l else l.reject, .skipped .epochChanged)
        else l.admitAnswer P c.config (pinned (c.shardOf key)) (c.offer P query response scope origin key) now) =
        some (c', d) := by
  unfold Cache.admitAnswer at h
  split at h
  · cases h
    exact .inl ⟨rfl, rfl⟩
  next key hkey =>
  split at h
  · cases h
    exact .inl ⟨rfl, rfl⟩
  next hbypass =>
  split at h
  · cases h
    exact .inl ⟨rfl, rfl⟩
  next hplain => exact .inr ⟨key, hkey, Bool.not_eq_true _ ▸ hbypass, hplain, h⟩

theorem admitFailure_cases {failure}
    (h : c.admitFailure P pinned query response scope now epoch failure = some (c', d)) :
    (c' = c ∧ d.admitted = false) ∨ ∃ key wire lifetime, Key.of query = some key ∧
      c.withShard key (fun l => if epoch ≠ c.epoch then some (l.reject, .skipped .epochChanged)
        else l.admitFailure P c.config (pinned (c.shardOf key)) ⟨key, scope, wire, lifetime, failure⟩ now) =
        some (c', d) := by
  unfold Cache.admitFailure at h
  split at h
  · cases h
    exact .inl ⟨rfl, rfl⟩
  next key hkey =>
  dsimp only at h
  split at h
  · cases h
    exact .inl ⟨rfl, rfl⟩
  split at h
  · cases h
    exact .inl ⟨rfl, rfl⟩
  split at h
  · cases h
    exact .inl ⟨rfl, rfl⟩
  exact .inr ⟨key, _, _, hkey, h⟩

theorem fails_spec (P : Platform) (pinned : Nat → Nat → Bool) (query : SingleQuery) (response : Message)
    (scope : Scope) (now epoch : Nat) (failure : Failure) (hwf : c.Wf) :
    ∃ c' d, c.admitFailure P pinned query response scope now epoch failure = some (c', d) ∧ c'.epoch = c.epoch ∧
      c.Fails P c' query scope now epoch := by
  unfold Cache.admitFailure
  split
  · exact ⟨c, _, rfl, rfl, .refused (.same c)⟩
  next key hkey =>
  dsimp only
  split
  · exact ⟨c, _, rfl, rfl, .refused (.same c)⟩
  split
  · exact ⟨c, _, rfl, rfl, .refused (.same c)⟩
  split
  · exact ⟨c, _, rfl, rfl, .refused (.same c)⟩
  next wire _ =>
  obtain ⟨f, hf, hfkey, hfscope⟩ : ∃ f : FailureOffer, f = ⟨key, scope, wire,
    min c.config.servfailTtlSecs (c.policy key query.question.name).negativeTtlCapSecs, failure⟩ ∧
    f.key = key ∧ f.scope = scope := ⟨_, rfl, rfl, rfl⟩
  rw [← hf]
  subst hfkey
  by_cases hepoch : epoch = c.epoch
  · simp only [ne_eq, hepoch, not_true_eq_false, if_false]
    refine withShard_ensures hwf f.key (R := fun _ s s' => ∃ gone new, s.Failed P c.config now f gone new s')
      (fun l hl => ?_) fun c' d he heach => ⟨he, .offered hkey hfscope rfl heach⟩
    obtain ⟨l', d, gone, new, hl', hfailed⟩ := admitFailure_spec P c.config (pinned (c.shardOf f.key)) now
      (hwf.shards _ _ hl) hwf.variants f
    exact ⟨l', d, hl', gone, new, hfailed⟩
  · simp only [ne_eq, hepoch, not_false_eq_true, if_true]
    refine withShard_ensures hwf f.key (R := fun _ s s' => s.SameButStats s')
      (fun l _ => ⟨_, _, rfl, reject_same l⟩) fun c' d he heach => ⟨he, .refused heach.stats⟩

variable {config : CacheConfig} {o : Offer} {gone : Entry → Bool} {new : Option Entry}

theorem Shard.Answered.moves (hhome : home o.key)
    (h : s.Answered P config o now gone new s') : s.Moves config.maxVariants home s' := by
  refine ⟨h.wf, gone, new, h.change, fun e he => ?_⟩
  obtain ⟨answer, _, rfl⟩ := h.entry e he
  have hkey : ((s.classified config o now).2.entry P config answer now (s.clock + 1)).key = o.key :=
    classified_key config o now s
  exact hkey.symm ▸ hhome

theorem Shard.Failed.moves {f : FailureOffer} (hhome : home f.key)
    (h : s.Failed P config now f gone new s') : s.Moves config.maxVariants home s' := by
  refine ⟨h.wf, gone, new, h.change, fun e he => ?_⟩
  obtain rfl := h.entry e he
  exact hhome

variable {r : Restore}

theorem Shard.Restored.change (h : s.Restored P config o now r s') :
    ∃ new, s.Change s' (pruned o.key now) new ∧ s'.sharing = s.sharing ∧
      ∀ e, new = some e → s.Supersedes o.key o.scope (pruned o.key now) ∧ ∃ answer, o.prepared = .ok answer ∧
        e = o.entry P config answer now (s.clock + 1) := by
  rcases h.outcome with hless | ⟨answer, hans, hsup, hmore⟩
  · exact ⟨none, hless.change, hless.sharing, fun _ h => by cases h⟩
  · refine ⟨_, hmore.change, hmore.sharing, fun e he => ⟨hsup, answer, hans, ?_⟩⟩
    exact (Option.some.inj he).symm

theorem Shard.Restored.moves (hhome : home o.key)
    (h : s.Restored P config o now r s') : s.Moves config.maxVariants home s' := by
  obtain ⟨new, hch, _, hnew⟩ := h.change
  refine ⟨h.wf, _, new, hch, fun e he => ?_⟩
  obtain ⟨_, answer, _, rfl⟩ := hnew e he
  exact hhome

theorem Shard.Alike.moves (h : s.Alike s') (hwf : s.Wf maxVariants) : s.Moves maxVariants home s' :=
  ⟨h.wf hwf, _, none, h.change, fun _ h => by cases h⟩

theorem Each.keeps_only {R} {I : Shard → Prop} (h : c.Each c' (Only i R))
    (hc : ∀ (i : Nat) (s : Shard), c.shards[i]? = some s → I s) (hR : ∀ s s', R s s' → I s → I s') :
    ∀ (i : Nat) (s' : Shard), c'.shards[i]? = some s' → I s' := by
  refine h.keeps hc fun j s s' hr hs => ?_
  unfold Only at hr
  split at hr
  · exact hR s s' hr hs
  · exact hr ▸ hs

/-- The shards of `c` have become those of `c'`; what is new is in the shard of its key, and was
asked for in this epoch. -/
def Moves (c c' : Cache) (epoch : Nat) : Prop :=
  c.Each c' fun i => Shard.Moves c.config.maxVariants fun key => c.shardOf key = i ∧ epoch = c.epoch

theorem Moves.wf (h : c.Moves c' epoch) (hwf : c.Wf) : c'.Wf := by
  refine Each.wf h hwf fun i s s' _ hmoves => ?_
  obtain ⟨hwf', gone, new, hch, hnew⟩ := hmoves
  exact ⟨hwf', gone, new, hch, fun e he => (hnew e he).1⟩

theorem Each.moves_same (h : c.Each c' fun _ s s' => s.SameButStats s') (hwf : c.Wf) : c.Moves c' epoch :=
  h.mono fun i s _ hs hsame => hsame.alike.moves (hwf.shards i s hs)

theorem Each.moves_only {R} (h : c.Each c' (Only (c.shardOf key) R)) (hwf : c.Wf) (hepoch : epoch = c.epoch)
    (hR : ∀ {s s' home}, R s s' → home key → s.Moves c.config.maxVariants home s') : c.Moves c' epoch := by
  refine h.mono fun i s s' hs hr => ?_
  unfold Only at hr
  split at hr
  · next hi => exact hR hr ⟨hi.symm, hepoch⟩
  · subst hr
    exact ((hwf.shards i s' hs).loses fun _ => True).moves

theorem Admits.moves (h : c.Admits P c' query response scope now epoch origin) (hwf : c.Wf) : c.Moves c' epoch := by
  cases h with
  | refused heach => exact heach.moves_same hwf
  | answered _ hepoch _ heach =>
    refine heach.moves_only hwf hepoch fun hans hhome => ?_
    obtain ⟨gone, new, hans⟩ := hans
    exact hans.moves hhome
  | restored _ hepoch _ heach => exact heach.moves_only hwf hepoch fun hres hhome => hres.moves hhome

theorem Fails.moves (h : c.Fails P c' query scope now epoch) (hwf : c.Wf) : c.Moves c' epoch := by
  cases h with
  | refused heach => exact heach.moves_same hwf
  | offered _ _ hepoch heach =>
    refine heach.moves_only hwf hepoch fun hfailed hhome => ?_
    obtain ⟨gone, new, hfailed⟩ := hfailed
    exact hfailed.moves hhome

/-! ## Invalidation and released handles -/

def filterOf (name : Option Name) (kind : Option RecordType) (scope : Option Scope) : Sharing.Filter :=
  ⟨name.map keyName, kind, scope⟩

structure Shard.Cleared (maxVariants : Nat) (f : Sharing.Filter) (s s' : Shard) : Prop where
  wf : s'.Wf maxVariants
  change : s.Change s' (Entry.cleared f) none
  sharing : s'.sharing = s.sharing.invalidate f

theorem invalidate_spec (pinned name kind scope) (hwf : c.Wf) :
    ∃ c' removed, c.invalidate pinned name kind scope = some (c', removed) ∧ c'.epoch = c.epoch + 1 ∧
      c.Each c' fun _ => Shard.Cleared c.config.maxVariants (filterOf name kind scope) := by
  obtain ⟨c', hc', hepoch, heach⟩ := forShards_spec (c := { c with epoch := c.epoch + 1 })
    (f := fun i l => l.clear (pinned i) (filterOf name kind scope))
    (R := fun _ => Shard.Cleared c.config.maxVariants (filterOf name kind scope)) fun i l hl => by
      obtain ⟨l', hl', hwf', hch, hsharing⟩ := clear_spec (pinned i) (hwf.shards i l.shard hl) (filterOf name kind scope)
      exact ⟨l', hl', hwf', hch, hsharing⟩
  refine ⟨c', (c.shards.map fun s => (s.resident (Entry.cleared (filterOf name kind scope))).length).sum, ?_, hepoch,
    ⟨heach.frame.config, heach.frame.hasher, heach.frame.rules, heach.frame.length⟩, heach.shards⟩
  unfold filterOf at hc' ⊢
  simp only [Cache.invalidate, hc', bind, Option.bind]

theorem Shard.Cleared.moves {f} (h : s.Cleared maxVariants f s') : s.Moves maxVariants home s' :=
  ⟨h.wf, _, none, h.change, fun _ h => by cases h⟩

theorem Partition.Wf.release {p : Partition} {negative} (h : p.Wf negative) (charge) :
    (p.release charge).Wf negative := by
  unfold Partition.release
  split
  · next hm =>
    have hsum : p.held.sum = charge + (p.held.erase charge).sum := by
      rw [(List.perm_cons_erase hm).sum_eq, List.sum_cons]
    have hcharged := h.charged
    have hwithin := h.within
    refine ⟨h.filed, h.fits, ?_, ?_⟩
    · dsimp only
      omega
    · dsimp only
      omega
  · exact h

theorem release_spec (hwf : s.Wf maxVariants) (negative charge) :
    s.Loses maxVariants (fun _ => False) (s.release negative charge) := by
  have hlru : ∀ part, ((s.release negative charge).partitions part).lru = (s.partitions part).lru ∧
      ((s.release negative charge).partitions part).maxEntries = (s.partitions part).maxEntries ∧
      ((s.release negative charge).partitions part).maxBytes = (s.partitions part).maxBytes ∧
      ((s.release negative charge).partitions part).Wf part := by
    intro part
    unfold Shard.release
    dsimp only
    by_cases hp : part = negative
    · subst hp
      rw [Function.update_self]
      refine ⟨?_, ?_, ?_, (hwf.parts part).release charge⟩ <;> (unfold Partition.release; split <;> rfl)
    · rw [Function.update_of_ne hp]
      exact ⟨rfl, rfl, rfl, hwf.parts part⟩
  have hentries : (s.release negative charge).entries = s.entries := by
    unfold Shard.entries
    rw [(hlru false).1, (hlru true).1]
  refine ⟨⟨fun part => (hlru part).2.2.2, ?_, ?_, ?_, ?_, hwf.nonempty, hwf.variants, ?_, ?_, ?_⟩,
    fun _ => false, ⟨by simp [hentries], by simp, le_rfl, fun part => (hlru part).2.1,
      fun part => (hlru part).2.2.1⟩, rfl, by simp⟩
  · exact hentries ▸ hwf.ids
  · exact hentries ▸ hwf.clock
  · exact hentries ▸ hwf.indexed
  · exact hentries ▸ hwf.filed
  · exact hentries ▸ hwf.learned
  · exact hentries ▸ hwf.failures
  · exact hentries ▸ hwf.negative

theorem release_each (hwf : c.Wf) (i negative charge) :
    c.Each (c.release i negative charge) fun _ => Shard.Loses c.config.maxVariants fun _ => False := by
  refine ⟨⟨rfl, rfl, rfl, by simp [Cache.release]⟩, fun j s hs => ?_⟩
  by_cases hj : i = j
  · refine ⟨s.release negative charge, ?_, release_spec (hwf.shards j s hs) negative charge⟩
    simp [Cache.release, hj, hs]
  · refine ⟨s, ?_, (hwf.shards j s hs).loses _⟩
    simp [Cache.release, hj, hs]

end Parins.Cache
