/-
What each transaction of the manager leaves: one specification a program, by the
sections of the world that its commands can change.
-/
import Parins.Manage.Runtime

namespace Parins.Manage
open Lib
open Lib.Exec (attempt ofExcept Ensures Sustains sustains_memory sustains_modify sustains_ofExcept sustains_attempt
  sustains_fail)
open Lib (bind_eq_ok)

variable {lib : Library} {C : Compiler} {t : Thread} {m m' : Manager} {w w' : World} {c : Cmd} {α β : Type}
  {next : Stored} {config : Config} {toml : Text}

/-- Every run of the program from this manager and world ends in `Q`. -/
abbrev Makes (C : Compiler) (t : Thread) (p : Act α) (Q : Except Error α → Manager → World → Prop) (m : Manager)
    (w : World) : Prop :=
  Ensures (effect C t) (fun _ _ => True) p Q m w

/-! ### Commands -/

/-- The commands that change nothing. -/
def Cmd.quiet : Cmd → Bool
  | .io | .certificates | .setupToken | .hashPassword _ | .ready | .bind _ | .isFinished
  | .snapshot | .ensureCurrent _ | .frozen | .work _ => true
  | _ => false

theorem effect_quiet (hc : c.quiet = true) {r} (h : effect C t c w r w') : w' = w := by
  obtain ⟨x, h⟩ := h
  cases c <;> simp only [Cmd.quiet, Bool.false_eq_true] at hc <;> cases h <;> rfl

variable {candidate : ConfigCandidate} {Q1 : Except Error α → Manager → World → Prop} {settings : RuntimeSettings}
  {p : Act α}

section Rules
variable {f : Ans c → Act β} {g : Unit → Act β} {Q : Except Error β → Manager → World → Prop}

theorem makes_step (hok : ∀ a w', effect C t c w (.ok a) w' → Makes C t (f a) Q m w')
    (herr : ∀ e w', effect C t c w (.error e) w' → Q (.error e) m w') : Makes C t (call c >>= f) Q m w := by
  refine Program.safe_ask fun r w' he => ⟨trivial, ?_⟩
  cases r with
  | ok a => exact hok a w' he
  | error e => exact herr e w' he

theorem makes_quiet (hc : c.quiet = true) (hok : ∀ a, effect C t c w (.ok a) w → Makes C t (f a) Q m w)
    (herr : ∀ e, Q (.error e) m w) : Makes C t (call c >>= f) Q m w := by
  refine makes_step (fun a w' he => ?_) fun e w' he => ?_
  · obtain rfl := effect_quiet hc he
    exact hok a he
  · obtain rfl := effect_quiet hc he
    exact herr e

theorem makes_save (hok : Makes C t (g ()) Q m { w with file := some next }) (herr : ∀ e, Q (.error e) m w) :
    Makes C t (call (.save next) >>= g) Q m w := by
  refine makes_step ?_ ?_
  · rintro a w' ⟨x, hx⟩
    simp only [perform, Outcome.settle] at hx
    split at hx <;> cases hx
    exact hok
  · rintro e w' ⟨x, hx⟩
    simp only [perform, Outcome.settle] at hx
    split at hx <;> cases hx
    exact herr e

variable {revision : Nat}

/-- A command that cannot fail and is certain. -/
theorem makes_sure {w'} {d : Cmd} {f : Ans d → Act β} {a : Ans d} (hd : ∀ x, perform C t x d w = some (.ok a, w'))
    (hok : Makes C t (f a) Q m w') : Makes C t (call d >>= f) Q m w := by
  refine makes_step ?_ ?_
  · rintro a' w'' ⟨x, hx⟩
    cases (hd x).symm.trans hx
    exact hok
  · rintro e w'' ⟨x, hx⟩
    cases (hd x).symm.trans hx

theorem makes_publishConfig
    (hok : ∀ x, Makes C t (g ()) Q m { w with filters := w.filters.publishConfig C x candidate revision }) :
    Makes C t (call (.publishConfig candidate revision) >>= g) Q m w := by
  refine makes_step ?_ ?_
  · rintro a w' ⟨x, hx⟩
    cases hx
    exact hok x.schedule
  · rintro e w' ⟨x, hx⟩
    cases hx

end Rules

variable {cond : Bool}

theorem ensure_ok {text} (h : ensure cond text = .ok ()) : cond = true := by
  unfold ensure at h
  split at h
  · assumption
  · cases h

/-! ### Transport -/

/-- The snapshot is of the configuration, whatever its certificates and realm. -/
def Snapshot.Of (lib : Library) (config : Config) (s : Snapshot) : Prop :=
  ∃ d, Snapshot.describe lib config = .ok d ∧ s.scheme = d.scheme ∧ s.publicHost = d.publicHost

variable {s : Snapshot}

theorem Snapshot.Of.changesRealm {s' : Snapshot} (h : s.Of lib config) (h' : s'.Of lib config) :
    s.changesRealm s' = false := by
  obtain ⟨d, hd, hs, hp⟩ := h
  obtain ⟨d', hd', hs', hp'⟩ := h'
  cases hd.symm.trans hd'
  simp [Snapshot.changesRealm, hs, hp, hs', hp']

variable {a : Active}

theorem Active.publish_same {candidate} (h : a.snapshot.changesRealm candidate = false) :
    a.publish candidate = { a with snapshot := { candidate with realm := a.snapshot.realm } } := by
  simp [Active.publish, h]

theorem Active.publish_of {candidate : Snapshot} (h : candidate.Of lib config) :
    (a.publish candidate).snapshot.Of lib config := by
  obtain ⟨d, hd, hs, hp⟩ := h
  refine ⟨d, hd, ?_⟩
  unfold Active.publish
  split
  · exact ⟨hs, hp⟩
  · exact ⟨hs, hp⟩

theorem prepareSnapshot_spec : Makes C t (prepareSnapshot lib config)
      (fun out m' w' => m' = m ∧ w' = w ∧ ∀ s, out = .ok s → s.Of lib config) m w := by
  refine sustains_ofExcept (fun d hd => ?_) (fun e _ => ⟨rfl, rfl, nofun⟩)
  refine makes_quiet rfl (fun n _ => ?_) (fun e => ⟨rfl, rfl, nofun⟩)
  refine ⟨rfl, rfl, fun s h => ?_⟩
  cases h
  exact ⟨d, hd, rfl, rfl⟩

theorem prepare_spec : Makes C t (prepare lib toml)
      (fun out m' w' => m' = m ∧ w' = w ∧ ∀ c s, out = .ok (c, s) → lib.parse toml = .ok c ∧ s.Of lib c) m w := by
  refine sustains_ofExcept (fun _ _ => ?_) (fun e _ => ⟨rfl, rfl, by simp⟩)
  refine sustains_ofExcept (fun config hparse => ?_) (fun e _ => ⟨rfl, rfl, by simp⟩)
  refine makes_quiet rfl (fun _ _ => ?_) (fun e => ⟨rfl, rfl, by simp⟩)
  refine Sustains.bind prepareSnapshot_spec ?_ ?_
  · rintro s _ _ ⟨rfl, rfl, hs⟩
    refine makes_quiet rfl (fun _ _ => ?_) (fun e => ⟨rfl, rfl, by simp⟩)
    refine ⟨rfl, rfl, fun c s' h => ?_⟩
    cases h
    exact ⟨hparse, hs s rfl⟩
  · rintro e _ _ ⟨rfl, rfl, _⟩
    exact ⟨rfl, rfl, by simp⟩

/-! ### Starting the saved configuration -/

theorem missingCertificates_spec {current} : Makes C t (missingCertificates lib config current)
      (fun out m' w' => m' = m ∧ w' = w ∧ ∀ s, out = .ok (some s) → s.Of lib config) m w := by
  unfold missingCertificates
  split
  · refine Sustains.bind prepareSnapshot_spec ?_ ?_
    · rintro s _ _ ⟨rfl, rfl, hs⟩
      refine ⟨rfl, rfl, fun s' h => ?_⟩
      cases h
      exact hs s rfl
    · rintro e _ _ ⟨rfl, rfl, _⟩
      exact ⟨rfl, rfl, nofun⟩
  · exact ⟨rfl, rfl, nofun⟩

theorem doWhen_io_spec : Makes C t (doWhen cond (call .io)) (fun _ m' w' => m' = m ∧ w' = w) m w := by
  unfold doWhen
  split
  · exact Program.safe_ask fun r w' he => ⟨trivial, rfl, effect_quiet rfl he⟩
  · exact ⟨rfl, rfl⟩

structure Starts (lib : Library) (toml : Text) (m : Manager) (w : World) (out : Except Error (Running × Option Snapshot))
    (m' : Manager) (w' : World) : Prop where
  world : w' = w
  manager : ∃ generation, m' = { m with generation := generation }
  started : ∀ running candidate, out = .ok (running, candidate) → w.filters.readyPolicy = true ∧
    ∃ config, lib.parse toml = .ok config ∧ running = ⟨config, config.cache⟩ ∧
      ∀ s, candidate = some s → s.Of lib config

theorem Starts.failed {e} : Starts lib toml m w (.error e) m w :=
  ⟨rfl, ⟨m.generation, rfl⟩, by simp⟩

variable {restored : Bool}

theorem start_spec : Makes C t (start lib toml restored) (Starts lib toml m w) m w := by
  refine sustains_memory ?_
  refine sustains_ofExcept (fun _ _ => ?_) (fun e _ => .failed)
  refine sustains_ofExcept (fun config hparse => ?_) (fun e _ => .failed)
  refine makes_quiet rfl (fun ready hready => ?_) (fun e => .failed)
  refine sustains_ofExcept (fun _ hensure => ?_) (fun e _ => .failed)
  have hpolicy : w.filters.readyPolicy = true := by
    obtain ⟨x, hx⟩ := hready
    cases hx
    exact ensure_ok hensure
  refine makes_quiet rfl (fun current _ => ?_) (fun e => .failed)
  refine Sustains.bind missingCertificates_spec ?_ ?_
  · rintro candidate _ _ ⟨rfl, rfl, hcandidate⟩
    refine makes_quiet rfl (fun _ _ => ?_) (fun e => .failed)
    refine Sustains.bind doWhen_io_spec ?_ ?_
    · rintro _ _ _ ⟨rfl, rfl⟩
      refine sustains_modify ⟨rfl, ⟨_, rfl⟩, fun running candidate' h => ?_⟩
      cases h
      refine ⟨hpolicy, config, hparse, rfl, fun s hs => hcandidate s ?_⟩
      rw [hs]
    · rintro e _ _ ⟨rfl, rfl⟩
      exact .failed
  · rintro e _ _ ⟨rfl, rfl, _⟩
    exact .failed

/-! ### Coherence -/

/-- The parts that a configuration decides are as it says. -/
structure InEffect (lib : Library) (config : Config) (n : Nat) (m : Manager) (w : World) : Prop where
  settings : w.filters.settings = config.filterSubscriptions
  revision : w.filters.revision = n
  rules : m.localError = none → config.localPolicySource.Gives w.reads w.filters.rules
  storage : w.storage.settings = RuntimeSettings.fromConfig config
  stored : w.storage.revision ≤ n
  transport : w.active.snapshot.Of lib config
  running : ∀ r, m.running = some r → r.config = config ∧ r.cache.value = config.cache.value ∧
    m.localError = none ∧ w.filters.readyPolicy = true

/-- What holds between two transactions. -/
structure Coherent (lib : Library) (C : Compiler) (m : Manager) (w : World) : Prop where
  file : w.file = m.saved
  current : w.filters.Current C w.catalog
  saved : ∀ s, m.saved = some s → ∃ config, lib.parse s.toml = .ok config ∧ InEffect lib config s.revision m w
  unset : m.saved = none → m.running = none ∧ w.storage.revision = 0

variable {n : Nat}

theorem Coherent.stored_le (h : Coherent lib C m w) (hn : ∀ s, m.saved = some s → s.revision ≤ n) :
    w.storage.revision ≤ n := by
  cases hs : m.saved with
  | none => exact (h.unset hs).2 ▸ Nat.zero_le n
  | some s =>
    obtain ⟨config, _, heffect⟩ := h.saved s hs
    exact heffect.stored.trans (hn s hs)

/-- DNS is recorded as unavailable: the status says why, and a retry is due or cannot help. -/
structure Manager.Unavailable (m : Manager) : Prop where
  running : m.running = none
  reason : ∃ reason, m.lastError = some (ascii "DNS unavailable: " ++ reason)
  cause : m.startup.isSome = true ∨ m.localError.isSome = true

/-- What a transaction that did not commit leaves. -/
structure Kept (lib : Library) (m : Manager) (w : World) (m' : Manager) (w' : World) : Prop where
  saved : m'.saved = m.saved
  localError : m'.localError = m.localError
  file : w'.file = w.file
  filters : w'.filters = w.filters
  catalog : w'.catalog = w.catalog
  reads : w.reads ⊆ w'.reads
  storage : w'.storage = w.storage
  realm : w'.active.snapshot.realm = w.active.snapshot.realm
  sessions : w'.active.sessions = w.active.sessions
  transport : ∀ config, w.active.snapshot.Of lib config → w'.active.snapshot.Of lib config

theorem Kept.same (hsaved : m'.saved = m.saved) (hlocal : m'.localError = m.localError) : Kept lib m w m' w :=
  ⟨hsaved, hlocal, rfl, rfl, rfl, .refl _, rfl, rfl, rfl, fun _ h => h⟩

theorem Kept.congr {m1 : Manager} (h : Kept lib m1 w m' w') (hsaved : m1.saved = m.saved)
    (hlocal : m1.localError = m.localError) : Kept lib m w m' w' :=
  { h with saved := h.saved.trans hsaved, localError := h.localError.trans hlocal }

theorem Kept.publish {c} (htransport : w.active.snapshot.Of lib c) (hs : s.Of lib c)
    (hm : m'.saved = m.saved) (hlocal : m'.localError = m.localError) :
    Kept lib m w m' { w with active := w.active.publish s } := by
  have heq := Active.publish_same (htransport.changesRealm hs)
  refine ⟨hm, hlocal, rfl, rfl, rfl, .refl _, rfl, ?_, ?_, fun config h => ?_⟩
  · simp only [heq]
  · simp only [heq]
  · obtain ⟨d, hd, hscheme, hhost⟩ := htransport
    obtain ⟨d', hd', hscheme', hhost'⟩ := hs
    obtain ⟨d'', hd'', hscheme'', hhost''⟩ := h
    cases hd.symm.trans hd'
    refine ⟨d'', hd'', ?_⟩
    simp only [heq]
    exact ⟨hscheme'.trans (hscheme.symm.trans hscheme''), hhost'.trans (hhost.symm.trans hhost'')⟩

/-- The saved document runs. -/
def Runs (lib : Library) (saved : Option Stored) (m' : Manager) (w' : World) : Prop :=
  ∃ s c, saved = some s ∧ lib.parse s.toml = .ok c ∧ m'.running = some ⟨c, c.cache⟩ ∧ m'.localError = none ∧
    w'.filters.readyPolicy = true

theorem restore_spec (hrunning : m.running = none) {c : Config} (hparse : lib.parse toml = .ok c)
    (htransport : w.active.snapshot.Of lib c) :
    Makes C t (restore lib toml restored) (fun out m' w' => out = .ok () ∧ Kept lib m w m' w' ∧
      ((m'.running = some ⟨c, c.cache⟩ ∧ m'.localError = none ∧ w'.filters.readyPolicy = true) ∨ m'.Unavailable)) m w := by
  refine sustains_memory ?_
  split
  · rename_i error hlocal
    refine ⟨rfl, .same rfl rfl, .inr ⟨hrunning, ⟨error, rfl⟩, .inr ?_⟩⟩
    exact Option.isSome_iff_exists.mpr ⟨error, hlocal⟩
  · rename_i hlocal
    refine sustains_attempt start_spec ?_
    rintro out m1 w1 ⟨rfl, ⟨generation, rfl⟩, hstarted⟩
    cases out with
    | error e =>
      exact ⟨rfl, .same rfl rfl, .inr ⟨hrunning, ⟨e.text, rfl⟩, .inl rfl⟩⟩
    | ok started =>
      obtain ⟨running, candidate⟩ := started
      obtain ⟨hpolicy, config, hconfig, rfl, hcandidate⟩ := hstarted running candidate rfl
      cases hparse.symm.trans hconfig
      cases candidate with
      | none => exact ⟨rfl, .same rfl rfl, .inl ⟨rfl, hlocal, hpolicy⟩⟩
      | some s =>
        refine makes_sure (fun _ => rfl) ?_
        exact ⟨rfl, .publish htransport (hcandidate s rfl) rfl rfl, .inl ⟨rfl, hlocal, hpolicy⟩⟩

variable {saved : Option Stored}

theorem restorePrevious_spec (hrunning : m.running = none)
    (h : ∀ s, saved = some s → ∃ c, lib.parse s.toml = .ok c ∧ w.active.snapshot.Of lib c) :
    Makes C t (restorePrevious lib saved) (fun out m' w' => out = .ok () ∧ Kept lib m w m' w' ∧
      ((saved = none ∧ m'.running = none) ∨ m'.Unavailable ∨ Runs lib saved m' w')) m w := by
  cases saved with
  | none => exact ⟨rfl, .same rfl rfl, .inl ⟨rfl, hrunning⟩⟩
  | some s =>
    obtain ⟨c, hparse, htransport⟩ := h s rfl
    refine Sustains.mono (restore_spec hrunning hparse htransport) ?_
    rintro out m' w' ⟨hout, hkept, hruns | hunavailable⟩
    · exact ⟨hout, hkept, .inr (.inr ⟨s, c, rfl, hparse, hruns⟩)⟩
    · exact ⟨hout, hkept, .inr (.inl hunavailable)⟩

/-! ### Applying a configuration -/

/-- The new document is saved, and everything is as it says. -/
structure Applied (lib : Library) (C : Compiler) (next : Stored) (m' : Manager) (w' : World) : Prop where
  saved : m'.saved = some next
  file : w'.file = some next
  current : w'.filters.Current C w'.catalog
  config : ∃ config, lib.parse next.toml = .ok config ∧ InEffect lib config next.revision m' w'

/-- Nothing but DNS may be otherwise than before. -/
structure Refused (lib : Library) (m : Manager) (w : World) (m' : Manager) (w' : World) : Prop extends
    Kept lib m w m' w' where
  dns : m'.running = m.running ∨ (m.saved = none ∧ m'.running = none) ∨ m'.Unavailable ∨ Runs lib m.saved m' w'

/-- The ends of a part of `apply` that leaves `R` when it succeeds. -/
def Ends (lib : Library) (C : Compiler) (next : Stored) (R : World → Prop) (m : Manager) (w : World)
    (out : Except Error Bool) (m' : Manager) (w' : World) : Prop :=
  match out with
  | .ok _ => Applied lib C next m' w' ∧ R w'
  | .error _ => Refused lib m w m' w'

/-- Unless only the updates change, a rule file has been read again and its rules are in service. -/
def Rereads (lib : Library) (next : Stored) (m : Manager) (w w' : World) : Prop :=
  updatesOnly lib m.saved next.toml = .ok true ∨ ∃ config reads, lib.parse next.toml = .ok config ∧
    w'.reads = reads ++ w.reads ∧ config.localPolicySource.Gives reads w'.filters.rules

/-- The rules of the candidate are in service, and no file has been read since. -/
def Puts (candidate : ConfigCandidate) (w w' : World) : Prop :=
  w'.filters.rules = candidate.rules ∧ w'.reads = w.reads

theorem Refused.refl : Refused lib m w m w := ⟨.same rfl rfl, .inl rfl⟩

theorem applyUpdates_spec (h : Coherent lib C m w) (hnext : ∀ s, m.saved = some s → s.revision ≤ next.revision)
    (honly : updatesOnly lib m.saved next.toml = .ok true) :
    Makes C t (applyUpdates lib next) (Ends lib C next (Rereads lib next m w) m w) m w := by
  refine sustains_ofExcept (fun config' hparse' => ?_) (fun e _ => .refl)
  refine makes_save ?_ (fun e => .refl)
  refine sustains_modify (makes_sure (fun _ => rfl) (sustains_modify ?_))
  obtain ⟨s, config, hs, hparse, heffect, hconfig⟩ : ∃ s config, m.saved = some s ∧ lib.parse s.toml = .ok config ∧
      InEffect lib config s.revision m w ∧ config' = { config with updates := config'.updates } := by
    unfold updatesOnly at honly
    split at honly
    · cases honly
    · rename_i s hs
      obtain ⟨config, hparse, heffect⟩ := h.saved s hs
      split at honly
      · cases honly
      · obtain ⟨old, hold, honly⟩ := bind_eq_ok.mp honly
        obtain ⟨new, hnew, honly⟩ := bind_eq_ok.mp honly
        obtain ⟨t1, ht1, hdecodes⟩ := Library.parse_ok hparse
        obtain ⟨t2, ht2, hdecodes'⟩ := Library.parse_ok hparse'
        simp only [Library.stripped, ht1, ht2, Except.map, Except.ok.injEq] at hold hnew
        have heq : old = new := by simpa using Except.ok.inj honly
        exact ⟨s, config, hs, hparse, heffect, hdecodes.updates_only hdecodes' (hold.trans (heq.trans hnew.symm))⟩
  refine ⟨⟨rfl, rfl, ⟨h.current.ready, h.current.served⟩, config', hparse', ?_⟩, .inl honly⟩
  rw [hconfig]
  refine ⟨heffect.settings, rfl, heffect.rules, heffect.storage, heffect.stored.trans (hnext s hs), ?_, ?_⟩
  · obtain ⟨d, hd, h⟩ := heffect.transport
    exact ⟨d, hd, h⟩
  · intro r hr
    obtain ⟨r0, hr0, rfl⟩ := Option.map_eq_some_iff.mp hr
    obtain ⟨hc, hcache, hlocal, hready⟩ := heffect.running r0 hr0
    refine ⟨?_, hcache, hlocal, hready⟩
    simp only [hc]

variable {replaceCache : Bool} {running : Running}

theorem hotChange_some {previous : Stored} {old new : Config}
    (h : hotChange lib running previous next.toml new.cache = some replaceCache)
    (hold : lib.parse previous.toml = .ok old) (hnew : lib.parse next.toml = .ok new) :
    new.doh = old.doh ∧ new.web = old.web ∧
      replaceCache = (running.config.cache.value != new.cache.value) := by
  obtain ⟨t1, ht1, hdecodes⟩ := Library.parse_ok hold
  obtain ⟨t2, ht2, hdecodes'⟩ := Library.parse_ok hnew
  simp only [hotChange, ht1, ht2] at h
  split at h
  · rename_i hsame
    obtain ⟨hdoh, hweb⟩ := hdecodes.hot hdecodes' hsame.1
    exact ⟨hdoh, hweb, (Option.some.inj h).symm⟩
  · cases h

theorem Snapshot.Of.congr {c : Config} (h : s.Of lib config) (hdoh : c.doh = config.doh)
    (hweb : c.web = config.web) : s.Of lib c := by
  obtain ⟨d, hd, h⟩ := h
  refine ⟨d, ?_, h⟩
  unfold Snapshot.describe at hd ⊢
  rw [hdoh, hweb]
  exact hd

theorem Desired.publishSettings_of_le {d : Desired} (h : d.revision ≤ n) :
    d.publishSettings settings n = ⟨settings, n⟩ := by
  rw [Desired.publishSettings, if_neg (by omega)]

theorem applyHot_spec (hC : C.Collisionless) {s : Stored}
    (h : Coherent lib C m w) (hs : m.saved = some s) (hnext : s.revision ≤ next.revision)
    (hrunning : m.running = some running) (hparse : lib.parse next.toml = .ok config)
    (hcandidate : candidate.For C w.catalog config.filterSubscriptions config.localPolicySource)
    (hrules : config.localPolicySource.Gives w.reads candidate.rules)
    (hhot : hotChange lib running s next.toml config.cache = some replaceCache) :
    Makes C t (applyHot next config candidate replaceCache) (Ends lib C next (Puts candidate w) m w) m w := by
  obtain ⟨old, hold, heffect⟩ := h.saved s hs
  obtain ⟨hdoh, hweb, hreplace⟩ := hotChange_some hhot hold hparse
  obtain ⟨hconfig, hcache, hlocal, _⟩ := heffect.running running hrunning
  refine makes_quiet rfl (fun finished _ => ?_) (fun e => .refl)
  split
  · exact .refl
  refine makes_save ?_ (fun e => .refl)
  refine makes_publishConfig fun x => sustains_modify (makes_sure (fun _ => rfl) (sustains_modify ?_))
  refine ⟨⟨rfl, rfl, Service.publishConfig_current hC hcandidate, config, hparse, ?_⟩, rfl, rfl⟩
  have hstored : w.storage.revision ≤ next.revision := heffect.stored.trans hnext
  refine ⟨hcandidate.settings, rfl, fun _ => hrules, ?_, ?_, heffect.transport.congr hdoh hweb, ?_⟩
  · simp only [Desired.publishSettings_of_le hstored]
  · simp only [Desired.publishSettings_of_le hstored, le_refl]
  · simp only [hrunning, Option.map_some]
    rintro _ ⟨⟩
    refine ⟨rfl, ?_, hlocal, rfl⟩
    split
    · rfl
    · rename_i hkeep
      rw [hreplace, hconfig] at hkeep
      exact hcache.trans (by simpa using hkeep)

/-- What a restart leaves before it is published. -/
def StartsNext (C : Compiler) (next : Stored) (config : Config) (candidate : ConfigCandidate) (m : Manager) (w : World)
    (out : Except Error Running) (m' : Manager) (w' : World) : Prop :=
  (∃ generation, m' = { m with generation := generation }) ∧
  match out with
  | .error _ => w' = w
  | .ok running => running = ⟨config, config.cache⟩ ∧ ∃ x, w' = { w with
      file := some next
      filters := w.filters.publishConfig C x candidate next.revision
      storage := w.storage.publishSettings (RuntimeSettings.fromConfig config) next.revision }

theorem startNext_spec :
    Makes C t (startNext next config candidate) (StartsNext C next config candidate m w) m w := by
  refine makes_quiet rfl (fun unbound _ => ?_) (fun e => ⟨⟨_, rfl⟩, rfl⟩)
  split
  · exact ⟨⟨_, rfl⟩, rfl⟩
  · refine makes_save ?_ (fun e => ⟨⟨_, rfl⟩, rfl⟩)
    refine makes_publishConfig fun x => makes_sure (fun _ => rfl) (sustains_modify ?_)
    exact ⟨⟨_, rfl⟩, rfl, x, rfl⟩

variable {error : Text}

theorem noteStopped_keeps (m : Manager) (error) : (noteStopped m error).running = m.running ∧
    (noteStopped m error).saved = m.saved ∧ (noteStopped m error).localError = m.localError ∧
    (noteStopped m error).turnstile = m.turnstile := by
  unfold noteStopped
  split <;> exact ⟨rfl, rfl, rfl, rfl⟩

theorem Kept.noteStopped (h : Kept lib m w m' w') : Kept lib m w (noteStopped m' error) w' := by
  obtain ⟨_, hsaved, hlocal, _⟩ := noteStopped_keeps m' error
  exact { h with saved := hsaved.trans h.saved, localError := hlocal.trans h.localError }

theorem Manager.Unavailable.noteStopped (h : m.Unavailable) : (noteStopped m error).Unavailable := by
  have hcause : ¬(m.running.isNone && m.startup.isNone && m.localError.isNone) = true := by
    obtain hstartup | hlocal := h.cause
    · cases hs : m.startup <;> simp [hs] at hstartup ⊢
    · cases hs : m.localError <;> simp [hs] at hlocal ⊢
  rw [Manage.noteStopped, if_neg hcause]
  exact h

theorem Runs.noteStopped (h : Runs lib saved m w) : Runs lib saved (noteStopped m error) w := by
  obtain ⟨s, c, hs, hc, hrunning, hlocal, hready⟩ := h
  obtain ⟨hrunning', _, hlocal', _⟩ := noteStopped_keeps m error
  exact ⟨s, c, hs, hc, hrunning'.trans hrunning, hlocal'.trans hlocal, hready⟩

theorem applyRestart_spec (hC : C.Collisionless) {transport : Snapshot} (h : Coherent lib C m w)
    (hnext : w.storage.revision ≤ next.revision) (hparse : lib.parse next.toml = .ok config)
    (htransport : transport.Of lib config)
    (hcandidate : candidate.For C w.catalog config.filterSubscriptions config.localPolicySource)
    (hrules : config.localPolicySource.Gives w.reads candidate.rules) :
    Makes C t (applyRestart lib next config transport candidate) (Ends lib C next (Puts candidate w) m w) m w := by
  refine sustains_memory (sustains_modify (sustains_attempt startNext_spec ?_))
  rintro out m1 w1 ⟨⟨generation, rfl⟩, hout⟩
  cases out with
  | ok running =>
    obtain ⟨rfl, x, rfl⟩ := hout
    refine makes_sure (fun _ => rfl) (sustains_modify ?_)
    refine ⟨⟨rfl, rfl, Service.publishConfig_current hC hcandidate, config, hparse, ?_⟩, rfl, rfl⟩
    refine ⟨hcandidate.settings, rfl, fun _ => hrules, ?_, ?_, Active.publish_of htransport, ?_⟩
    · simp only [Desired.publishSettings_of_le hnext]
    · simp only [Desired.publishSettings_of_le hnext, le_refl]
    · rintro _ ⟨⟩
      exact ⟨rfl, rfl, rfl, rfl⟩
  | error e =>
    cases hout
    refine Sustains.bind (restorePrevious_spec rfl fun s hs => ?_) ?_ ?_
    · obtain ⟨old, hold, heffect⟩ := h.saved s hs
      exact ⟨old, hold, heffect.transport⟩
    · rintro _ m2 w2 ⟨_, hkept, hdns⟩
      have hkept : Kept lib m w m2 w2 := hkept.congr rfl rfl
      refine sustains_modify (sustains_fail ⟨hkept.noteStopped, .inr ?_⟩)
      obtain ⟨hnone, hrunning⟩ | hunavailable | hruns := hdns
      · exact .inl ⟨hnone, (noteStopped_keeps m2 _).1.trans hrunning⟩
      · exact .inr (.inl hunavailable.noteStopped)
      · exact .inr (.inr hruns.noteStopped)
    · rintro e' m2 w2 ⟨h, _⟩
      cases h

theorem cacheOnlyChange_spec {nextCache} :
    Makes C t (cacheOnlyChange lib toml nextCache)
      (fun out m' w' => m' = m ∧ w' = w ∧ ∀ replace, out = .ok (some replace) →
      ∃ running s, m.running = some running ∧ m.saved = some s ∧
        hotChange lib running s toml nextCache = some replace) m w := by
  refine sustains_memory ?_
  split
  · rename_i running s hrunning hs
    refine makes_quiet rfl (fun finished _ => ⟨rfl, rfl, fun replace h => ?_⟩) (fun e => ⟨rfl, rfl, nofun⟩)
    split at h
    · cases h
    · exact ⟨running, s, hrunning, hs, Except.ok.inj h⟩
  · exact ⟨rfl, rfl, nofun⟩

theorem Coherent.read {reads} (h : Coherent lib C m w) (hsub : w.reads ⊆ reads) : Coherent lib C m { w with reads } := by
  refine ⟨h.file, h.current, fun s hs => ?_, h.unset⟩
  obtain ⟨config, hparse, heffect⟩ := h.saved s hs
  exact ⟨config, hparse, { heffect with rules := fun hlocal => (heffect.rules hlocal).mono hsub }⟩

theorem applyFull_spec (hC : C.Collisionless) (h : Coherent lib C m w)
    (hnext : ∀ s, m.saved = some s → s.revision ≤ next.revision) :
    Makes C t (applyFull lib next) (Ends lib C next (Rereads lib next m w) m w) m w := by
  refine sustains_memory (sustains_ofExcept (fun _ _ => ?_) (fun e _ => .refl))
  refine Sustains.bind prepare_spec ?_ ?_
  · rintro ⟨config, transport⟩ m w ⟨rfl, rfl, hprepared⟩
    obtain ⟨hparse, htransport⟩ := hprepared config transport rfl
    refine makes_step ?_ ?_
    · rintro candidate _ ⟨x, hx⟩
      obtain ⟨hcandidate, rfl⟩ := Prod.mk.inj (Option.some.inj hx)
      have hfor := Service.prepareConfigFromSource_ok hC h.current hcandidate
      simp only [hcandidate, Except.toOption, Option.map_some, Option.getD_some]
      -- what follows starts from the world with the read
      let read : World := { w with reads := config.localPolicySource.read candidate.rules ++ w.reads }
      have hcoherent : Coherent lib C m read := h.read (List.subset_append_right _ _)
      have hrules : config.localPolicySource.Gives read.reads candidate.rules :=
        hfor.rules.mono (List.subset_append_left _ _)
      refine Sustains.mono (Q := Ends lib C next (Puts candidate read) m read) ?_ ?_
      · refine Sustains.bind cacheOnlyChange_spec ?_ ?_
        · rintro replace _ _ ⟨rfl, rfl, hchange⟩
          cases replace with
          | some replace =>
            obtain ⟨running, s, hrunning, hs, hhot⟩ := hchange replace rfl
            exact applyHot_spec hC hcoherent hs (hnext s hs) hrunning hparse hfor hrules hhot
          | none => exact applyRestart_spec hC hcoherent (h.stored_le hnext) hparse htransport hfor hrules
        · rintro e _ _ ⟨rfl, rfl, _⟩
          exact .refl
      · intro out m' w' hends
        cases out with
        | ok restarted =>
          obtain ⟨happlied, hservice, hreads⟩ := hends
          exact ⟨happlied, .inr ⟨config, _, hparse, hreads, hservice ▸ hfor.rules⟩⟩
        | error e => exact ⟨{ hends.toKept with reads := fun _ hr => hends.reads (List.mem_append_right _ hr) }, hends.dns⟩
    · rintro e _ ⟨x, hx⟩
      obtain ⟨hfailed, rfl⟩ := Prod.mk.inj (Option.some.inj hx)
      rw [hfailed]
      exact .refl
  · rintro e _ _ ⟨rfl, rfl, _⟩
    exact .refl

/-- Every end of `apply`, from any coherent state. -/
theorem apply_spec (hC : C.Collisionless) (h : Coherent lib C m w)
    (hnext : ∀ s, m.saved = some s → s.revision ≤ next.revision) :
    Makes C t (apply lib next) (Ends lib C next (Rereads lib next m w) m w) m w := by
  refine sustains_memory (sustains_ofExcept (fun only honly => ?_) (fun e _ => .refl))
  split
  · rename_i htrue
    exact applyUpdates_spec h hnext (htrue ▸ honly)
  · exact applyFull_spec hC h hnext

end Parins.Manage
