/-
Configuration changes over whole runs of the management plane: whatever
succeeded and failed before, a change is applied in all its parts or in none.
-/
import Mathlib.Logic.Relation
import Parins.Manage.Applied

namespace Parins.Manage
open Lib
open Lib (bind_eq_ok)
open Lib.Exec (Sustains sustains_memory)
open Relation (ReflTransGen)

variable {lib : Library} {C : Compiler} {t : Thread} {m m' : Manager} {w w' : World} {next : Stored} {x : Opening}

/-! ### Coherence is kept -/

theorem Applied.coherent (h : Applied lib C next m' w') : Coherent lib C m' w' where
  file := h.file.trans h.saved.symm
  current := h.current
  saved := by
    intro s hs
    cases h.saved.symm.trans hs
    exact h.config
  unset := by
    intro hs
    cases h.saved.symm.trans hs

theorem Refused.coherent (h : Coherent lib C m w) (hr : Refused lib m w m' w') : Coherent lib C m' w' where
  file := hr.file.trans (h.file.trans hr.saved.symm)
  current := by
    rw [hr.filters, hr.catalog]
    exact h.current
  saved := by
    intro s hs
    rw [hr.saved] at hs
    obtain ⟨config, hparse, heffect⟩ := h.saved s hs
    refine ⟨config, hparse, ?_⟩
    refine ⟨hr.filters ▸ heffect.settings, hr.filters ▸ heffect.revision, ?_, hr.storage ▸ heffect.storage,
      hr.storage ▸ heffect.stored, hr.transport config heffect.transport, fun r hrunning => ?_⟩
    · rw [hr.localError, hr.filters]
      exact fun hlocal => (heffect.rules hlocal).mono hr.reads
    · obtain hsame | ⟨hnone, _⟩ | hunavailable | ⟨s', c, hs', hc, hruns, hlocal, hready⟩ := hr.dns
      · rw [hr.localError, hr.filters]
        exact heffect.running r (hsame ▸ hrunning)
      · cases hs.symm.trans hnone
      · cases hunavailable.running.symm.trans hrunning
      · cases hs.symm.trans hs'
        cases hparse.symm.trans hc
        cases hruns.symm.trans hrunning
        exact ⟨rfl, rfl, hlocal, hready⟩
  unset := by
    intro hs
    rw [hr.saved] at hs
    refine ⟨?_, hr.storage ▸ (h.unset hs).2⟩
    obtain hsame | ⟨_, hrunning⟩ | hunavailable | ⟨s', c, hs', _⟩ := hr.dns
    · exact hsame.trans (h.unset hs).1
    · exact hrunning
    · exact hunavailable.running
    · cases hs.symm.trans hs'

theorem Ends.coherent {out R} (h : Coherent lib C m w) (he : Ends lib C next R m w out m' w') :
    Coherent lib C m' w' := by
  cases out with
  | ok restarted => exact he.1.coherent
  | error e => exact Refused.coherent h he

theorem restore_refused {s : Stored} {restored} (h : Coherent lib C m w) (hs : m.saved = some s)
    (hrunning : m.running = none) :
    Makes C t (restore lib s.toml restored) (fun _ m' w' => Refused lib m w m' w') m w := by
  obtain ⟨config, hparse, heffect⟩ := h.saved s hs
  refine Sustains.mono (restore_spec hrunning hparse heffect.transport) ?_
  rintro out m' w' ⟨_, hkept, hruns | hunavailable⟩
  · exact ⟨hkept, .inr (.inr (.inr ⟨s, config, hs, hparse, hruns⟩))⟩
  · exact ⟨hkept, .inr (.inr (.inl hunavailable))⟩

theorem retryStartup_refused (h : Coherent lib C m w) (hrunning : m.running = none) :
    Makes C t (retryStartup lib) (fun _ m' w' => Refused lib m w m' w') m w := by
  refine sustains_memory ?_
  split
  · rename_i s hs
    exact restore_refused h hs hrunning
  · exact .refl

theorem reapExited_refused {reason} : Makes C t (reapExited reason) (fun _ m' w' => Refused lib m w m' w') m w := by
  refine sustains_memory ?_
  split
  · exact .refl
  · refine makes_quiet rfl (fun finished _ => ?_) (fun e => .refl)
    unfold doWhen
    split
    · exact ⟨⟨rfl, rfl, rfl, rfl, rfl, .refl _, rfl, rfl, rfl, fun _ h => h⟩,
        .inr (.inr (.inl ⟨rfl, ⟨reason, rfl⟩, .inl rfl⟩))⟩
    · exact .refl

/-! ### Opening -/

theorem Service.Current.unset {s : Service} {catalog} (hready : s.readyPolicy = false) (hdigest : s.inputDigest = none) :
    s.Current C catalog := by
  refine ⟨fun h => ?_, fun _ h => ?_⟩
  · rw [hready] at h
    cases h
  · rw [hdigest] at h
    cases h

theorem Service.opened_current (hC : C.Collisionless) {settings rules revision} :
    (Service.opened C x settings rules revision).Current C x.catalog := by
  simp only [Service.opened]
  split
  · exact .unset rfl rfl
  · rename_i policy digest preserved hmaterial
    refine ⟨fun _ => rfl, fun digest hdigest => ?_⟩
    cases hdigest
    exact Service.material_ok hC (.unset rfl rfl) hmaterial

theorem Service.opened_fields {settings rules revision} :
    (Service.opened C x settings rules revision).settings = settings ∧
      (Service.opened C x settings rules revision).rules = rules ∧
      (Service.opened C x settings rules revision).revision = revision := by
  simp only [Service.opened]
  split
  · exact ⟨rfl, rfl, rfl⟩
  · exact ⟨rfl, rfl, rfl⟩

theorem Snapshot.opened_of {config} {s : Snapshot} (h : Snapshot.opened lib x config = .ok s) : s.Of lib config := by
  obtain ⟨d, hd, h⟩ := bind_eq_ok.mp h
  refine ⟨d, hd, ?_⟩
  split at h
  · cases h
    exact ⟨rfl, rfl⟩
  · split at h
    · cases h
    · cases h
      exact ⟨rfl, rfl⟩

theorem Manager.opened_coherent (hC : C.Collisionless) (h : Manager.opened lib C x = .ok (m, w)) :
    Coherent lib C m w ∧ m.running = none := by
  unfold Manager.opened at h
  split at h
  · cases h
    exact ⟨⟨rfl, Service.opened_current hC, nofun, fun _ => ⟨rfl, rfl⟩⟩, rfl⟩
  · rename_i s hs
    obtain ⟨config, hparse, h⟩ := bind_eq_ok.mp h
    obtain ⟨snapshot, hsnapshot, h⟩ := bind_eq_ok.mp h
    cases h
    refine ⟨⟨rfl, Service.opened_current hC, ?_, nofun⟩, rfl⟩
    rintro s' ⟨⟩
    obtain ⟨hsettings, hrules, hrevision⟩ := @Service.opened_fields C x config.filterSubscriptions
      ((config.localPolicySource.compile x.preparation).toOption.getD []) s.revision
    refine ⟨config, hparse, hsettings, hrevision, fun hlocal => ?_, rfl, le_refl _, Snapshot.opened_of hsnapshot,
      nofun⟩
    cases hcompile : config.localPolicySource.compile x.preparation with
    | error e => simp [hcompile] at hlocal
    | ok rules =>
      rw [hcompile] at hrules
      show config.localPolicySource.Gives _ (Service.opened ..).rules
      rw [hrules]
      exact LocalPolicySource.gives_of_compile hcompile

/-! ### Runs -/

/-- The management plane between two transactions. -/
structure Plane where
  manager : Manager
  world : World

/-- What may happen between two looks at the plane. The mutation permit serializes the first three and
the last but one; the manager's lock serializes them all. -/
inductive Plane.Step (lib : Library) (C : Compiler) (p : Plane) : Plane → Prop
  | apply (request : Call) (stored : Stored) (thread : Thread) {out : Except Error Bool} {m : Manager} {w : World}
      (call : request.next p.manager.saved = some stored)
      (returns : (Manage.apply lib stored p.manager).Returns (effect C thread) p.world (out, m) w) : Step lib C p ⟨m, w⟩
  | retry (thread : Thread) {out : Except Error Unit} {m : Manager} {w : World} (stopped : p.manager.running = none)
      (returns : (retryStartup lib p.manager).Returns (effect C thread) p.world (out, m) w) : Step lib C p ⟨m, w⟩
  | reap (reason : Text) (thread : Thread) {out : Except Error Unit} {m : Manager} {w : World}
      (returns : (reapExited reason p.manager).Returns (effect C thread) p.world (out, m) w) : Step lib C p ⟨m, w⟩
  /-- New credentials keep the document and its revision. -/
  | rotate (stored : Stored) (username passwordHash : Text) (saved : p.manager.saved = some stored) :
      Step lib C p ⟨{ p.manager with saved := some { stored with username, passwordHash } },
        { p.world with
          file := some { stored with username, passwordHash }
          active := { p.world.active with sessions := [] } }⟩
  /-- The store commits a catalog: a refresh of subscriptions for the settings and local rules in service,
  or a change that leaves the contents of effective sources. -/
  | refresh (catalog : Filters.Catalog) (records : List Filters.SourceRecord) (material : Option Inputs)
      (built : p.world.filters.Refreshes p.world.catalog catalog material) :
      Step lib C p ⟨p.manager, { p.world with catalog, filters := p.world.filters.commit C records material }⟩
  /-- Logins, logouts and Turnstile changes. -/
  | sessions (sessions : List Session) (turnstile : Turnstile) (keys : Option Keys) :
      Step lib C p ⟨{ p.manager with turnstile },
        { p.world with turnstileFile := keys, active := { p.world.active with sessions } }⟩

/-- The plane as `Manager::open` leaves it: opened, and a saved configuration started if it can be. -/
inductive Plane.Opened (lib : Library) (C : Compiler) : Plane → Prop
  | unset (opening : Opening) {m : Manager} {w : World} (opens : Manager.opened lib C opening = .ok (m, w))
      (saved : m.saved = none) : Opened lib C ⟨m, w⟩
  | saved (opening : Opening) (stored : Stored) (restored : Bool) (thread : Thread) {out : Except Error Unit}
      {m m1 : Manager} {w w1 : World} (opens : Manager.opened lib C opening = .ok (m, w)) (saved : m.saved = some stored)
      (returns : (restore lib stored.toml restored m).Returns (effect C thread) w (out, m1) w1) : Opened lib C ⟨m1, w1⟩

theorem Call.next_revision {request : Call} {saved} (h : request.next saved = some next) :
    ∀ s, saved = some s → s.revision ≤ next.revision := by
  rintro s rfl
  cases request with
  | setup username passwordHash toml => cases h
  | change toml =>
    simp only [Call.next] at h
    split at h
    · cases h
      exact Nat.le_succ _
    · cases h

theorem Plane.Opened.coherent {p : Plane} (hC : C.Collisionless) (h : p.Opened lib C) :
    Coherent lib C p.manager p.world := by
  cases h with
  | unset opening opens saved => exact (Manager.opened_coherent hC opens).1
  | saved opening stored restored thread opens saved returns =>
    obtain ⟨hcoherent, hrunning⟩ := Manager.opened_coherent hC opens
    exact Refused.coherent hcoherent (Program.Bears.returns (restore_refused hcoherent saved hrunning) returns)

theorem Plane.Step.coherent {p p' : Plane} (hC : C.Collisionless) (h : Coherent lib C p.manager p.world)
    (hs : p.Step lib C p') : Coherent lib C p'.manager p'.world := by
  cases hs with
  | apply request stored thread call returns =>
    exact Ends.coherent h (Program.Bears.returns (apply_spec hC h (Call.next_revision call)) returns)
  | retry thread stopped returns =>
    exact Refused.coherent h (Program.Bears.returns (retryStartup_refused h stopped) returns)
  | reap reason thread returns => exact Refused.coherent h (Program.Bears.returns reapExited_refused returns)
  | rotate stored username passwordHash saved =>
    obtain ⟨config, hparse, heffect⟩ := h.saved stored saved
    refine ⟨rfl, h.current, ?_, nofun⟩
    rintro s ⟨⟩
    exact ⟨config, hparse, { heffect with }⟩
  | refresh catalog records material built =>
    refine ⟨h.file, Service.commit_current hC h.current built, fun s hs => ?_, h.unset⟩
    obtain ⟨config, hparse, heffect⟩ := h.saved s hs
    refine ⟨config, hparse, ?_⟩
    cases material with
    | none => exact { heffect with }
    | some inputs =>
      exact { heffect with running := fun r hr =>
        let ⟨hc, hcache, hlocal, _⟩ := heffect.running r hr
        ⟨hc, hcache, hlocal, rfl⟩ }
  | sessions sessions turnstile keys =>
    refine ⟨h.file, h.current, fun s hs => ?_, h.unset⟩
    obtain ⟨config, hparse, heffect⟩ := h.saved s hs
    exact ⟨config, hparse, { heffect with }⟩

theorem Plane.coherent {p0 p : Plane} (hC : C.Collisionless) (hopen : p0.Opened lib C)
    (hrun : ReflTransGen (Plane.Step lib C) p0 p) : Coherent lib C p.manager p.world := by
  induction hrun with
  | refl => exact hopen.coherent hC
  | tail _ hstep ih => exact hstep.coherent hC ih

/-! ### All or nothing -/

/-- A running generation has this configuration, and the parts that outlive it have its sections: the
policy is the one compiled from its rules, its sources and what the store has for them. -/
structure Config.Live (C : Compiler) (config : Config) (r : Running) (w : World) : Prop where
  runs : r.config = config
  cache : r.cache.value = config.cache.value
  rules : config.localPolicySource.Gives w.reads w.filters.rules
  policy : ∃ sources, config.filterSubscriptions.select (content w.catalog) = .ok sources ∧
    w.filters.policy.Same (C.compile (config.filterSubscriptions.inputs w.filters.rules sources))
  storage : w.storage.settings = RuntimeSettings.fromConfig config

theorem InEffect.live {config : Config} {n r} (hc : w.filters.Current C w.catalog)
    (h : InEffect lib config n m w) (hr : m.running = some r) : config.Live C r w := by
  obtain ⟨hconfig, hcache, hlocal, hready⟩ := h.running r hr
  obtain ⟨digest, hdigest⟩ := Option.isSome_iff_exists.mp (hc.ready hready)
  obtain ⟨sources, hsources, _, hsame⟩ := hc.served digest hdigest
  rw [h.settings] at hsources hsame
  exact ⟨hconfig, hcache, h.rules hlocal, ⟨sources, hsources, hsame⟩, h.storage⟩

/-- Every call of `apply`, in any state that the plane reaches, and for every outcome of its steps. -/
theorem apply_all_or_nothing (hC : C.Collisionless) (p0 p : Plane) (hopen : p0.Opened lib C)
    (hrun : ReflTransGen (Plane.Step lib C) p0 p) (request : Call) (next : Stored)
    (hnext : request.next p.manager.saved = some next) (t : Thread) (out : Except Error Bool) (m' : Manager) (w' : World)
    (hreturns : (apply lib next p.manager).Returns (effect C t) p.world (out, m') w') :
    m'.saved = w'.file ∧
    (∀ restarted, out = .ok restarted → m'.saved = some next ∧ ∃ config, lib.parse next.toml = .ok config ∧
      w'.filters.settings = config.filterSubscriptions ∧ w'.filters.revision = next.revision ∧
      (updatesOnly lib p.manager.saved next.toml = .ok true ∨ ∃ reads, w'.reads = reads ++ p.world.reads ∧
        config.localPolicySource.Gives reads w'.filters.rules) ∧
      ∀ r, m'.running = some r → config.Live C r w') ∧
    ∀ e, out = .error e →
      (m'.saved = p.manager.saved ∧ w'.file = p.world.file) ∧
      (w'.filters = p.world.filters ∧ w'.catalog = p.world.catalog) ∧ w'.storage = p.world.storage ∧
      (w'.active.snapshot.realm = p.world.active.snapshot.realm ∧ w'.active.sessions = p.world.active.sessions) ∧
      ∀ s, p.manager.saved = some s →
        (∃ r config, m'.running = some r ∧ lib.parse s.toml = .ok config ∧ config.Live C r w') ∨
        (p.manager.running = none ∧ m'.running = none) ∨ m'.Unavailable := by
  have hcoherent := Plane.coherent hC hopen hrun
  have hends := Program.Bears.returns (apply_spec hC hcoherent (Call.next_revision hnext)) hreturns
  have hcoherent' := Ends.coherent hcoherent hends
  refine ⟨hcoherent'.file.symm, ?_, ?_⟩
  · rintro restarted rfl
    obtain ⟨⟨hsaved, _, hcurrent, config, hparse, heffect⟩, hrereads⟩ := hends
    refine ⟨hsaved, config, hparse, heffect.settings, heffect.revision, hrereads.imp_right ?_,
      fun r hr => heffect.live hcurrent hr⟩
    rintro ⟨config', reads, hparse', hreads⟩
    cases hparse.symm.trans hparse'
    exact ⟨reads, hreads⟩
  · rintro e rfl
    have hrefused : Refused lib p.manager p.world m' w' := hends
    refine ⟨⟨hrefused.saved, hrefused.file⟩, ⟨hrefused.filters, hrefused.catalog⟩, hrefused.storage,
      ⟨hrefused.realm, hrefused.sessions⟩, fun s hs => ?_⟩
    cases hr : m'.running with
    | some r =>
      obtain ⟨config, hparse, heffect⟩ := hcoherent'.saved s (hrefused.saved.trans hs)
      exact .inl ⟨r, config, rfl, hparse, heffect.live hcoherent'.current hr⟩
    | none =>
      refine .inr ?_
      obtain hsame | ⟨hnone, _⟩ | hunavailable | ⟨_, _, _, _, hruns, _⟩ := hrefused.dns
      · exact .inl ⟨hsame.symm.trans hr, rfl⟩
      · cases hs.symm.trans hnone
      · exact .inr hunavailable
      · cases hruns.symm.trans hr

/-! ### A first setup -/

@[irreducible] def sampleToml : Text :=
  ascii "listen='127.0.0.1:53'\nfilter_file='rules.toml'\n[upstreams]\nservers=['127.0.0.1:9']\n"
    ++ ascii "[[filter_subscriptions.sources]]\nid='ads'\nurl='https://ads.test/hosts'\n"

def sampleTable : Table :=
  [(ascii "filter_file", ascii "'rules.toml'"), (ascii "filter_subscriptions", ascii "sources=[\x7bid='ads'\x7d]"),
   (ascii "listen", ascii "'127.0.0.1:53'"), (ascii "upstreams", ascii "servers=['127.0.0.1:9']")]

def sampleHex (b : UInt8) : Hex := ⟨List.replicate 64 b, List.length_replicate⟩

def sampleSource : SourceSettings := ⟨⟨ascii "ads", by decide +kernel⟩, sampleHex 97, true, true, 24, none⟩

def sampleLibrary : Library where
  document text := if text = sampleToml then .ok sampleTable else .error (.message (ascii "invalid TOML configuration"))
  updates _ := .ok ⟨true, 24⟩
  cache _ := .ok ⟨⟨true, 268435456⟩, []⟩
  filter _ := .ok []
  filterFile value := .ok (value.map fun _ => ascii "rules.toml")
  filterSubscriptions value := .ok { sources := value.toList.map fun _ => sampleSource }
  storage _ := .ok []
  queryLog _ := .ok []
  statistics _ := .ok []
  doh _ := .ok none
  web _ := .ok none
  rest _ := .ok []
  validate _ := .ok ()
  publicHost := .ok
  defaults := ⟨[], [], [], 268435456⟩

/-- A hash that ends by itself. -/
def sampleHash : Bytes → Bytes
  | [] => [0]
  | b :: text => 1 :: b :: sampleHash text

def sampleCompiler : Compiler where
  sha256 := sampleHash
  records rules := rules
  responses _ := ⟨⟨[], List.not_mem_nil⟩, 10, 1, [none]⟩
  classes r := r.slots.map fun _ => 0
  inputRules _ := 0
  inputBytes rules := rules.length
  compile inputs := ⟨inputs.rules ++ inputs.sources.flatMap Input.bytes, 10, 0, by decide⟩

theorem sampleCompiler_collisionless : sampleCompiler.Collisionless := by
  intro a
  induction a with
  | nil =>
    rintro (_ | ⟨y, b⟩) s t h
    · exact ⟨rfl, (List.cons.inj h).2⟩
    · cases (List.cons.inj h).1
  | cons x a ih =>
    rintro (_ | ⟨y, b⟩) s t h
    · cases (List.cons.inj h).1
    · obtain ⟨hbyte, h⟩ := List.cons.inj (List.cons.inj h).2
      obtain ⟨hrest, hst⟩ := ih b s t h
      exact ⟨by rw [hbyte, hrest], hst⟩

def sampleSetup : Call := .setup (ascii "admin") (ascii "$argon2id$") sampleToml

def sampleStored : Stored := ⟨ascii "admin", ascii "$argon2id$", sampleToml, none, 1⟩

/-- The store has a content of the source. -/
def sampleCatalog : Filters.Catalog :=
  { records := [⟨(sampleHex 97).val, (sampleHex 98).val, 0, 0, ⟨[], [], [], none, none⟩, 0, {}⟩] }

def samplePlane : Plane where
  manager := {}
  world :=
    { filters := Service.opened sampleCompiler { catalog := sampleCatalog } {} [] 0
      catalog := sampleCatalog
      storage := ⟨sampleLibrary.defaults, 0⟩ }

theorem samplePlane_opened : samplePlane.Opened sampleLibrary sampleCompiler := .unset { catalog := sampleCatalog } rfl rfl

theorem sampleSetup_next : sampleSetup.next samplePlane.manager.saved = some sampleStored := by decide +kernel

theorem sampleSetup_runs :
    (((apply sampleLibrary sampleStored samplePlane.manager).run
      (perform sampleCompiler 0 { preparation := { file := .ok (ascii "a.com") } }) samplePlane.world).map
      fun end_ => ((end_.1.1, end_.1.2.running.isSome), end_.2.filters.policy.witnesses, end_.2.reads)) =
      some ((.ok true, true), ascii "a.com" ++ Input.bytes ⟨sampleSource.id, sampleHex 97, sampleHex 98⟩,
        [(ascii "rules.toml", ascii "a.com")]) := by
  decide +kernel

/-- The setup runs DNS by the rules that were read and the content in the store. -/
theorem apply_all_or_nothing_sample :
    samplePlane.Opened sampleLibrary sampleCompiler ∧ ∃ m' w' r, ∃ config : Config,
      (apply sampleLibrary sampleStored samplePlane.manager).Returns (effect sampleCompiler 0) samplePlane.world
        (.ok true, m') w' ∧
      w'.reads = [(ascii "rules.toml", ascii "a.com")] ∧
      w'.filters.policy.witnesses = ascii "a.com" ++ Input.bytes ⟨sampleSource.id, sampleHex 97, sampleHex 98⟩ ∧
      m'.saved = w'.file ∧ m'.saved = some sampleStored ∧ m'.running = some r ∧ config.Live sampleCompiler r w' := by
  obtain ⟨⟨⟨out, m'⟩, w'⟩, hrun, hend⟩ := Option.map_eq_some_iff.mp sampleSetup_runs
  simp only [Prod.mk.injEq] at hend
  obtain ⟨⟨rfl, hrunning⟩, hwitnesses, hreads⟩ := hend
  obtain ⟨r, hr⟩ := Option.isSome_iff_exists.mp hrunning
  have hreturns := returns_of_perform hrun
  obtain ⟨hsaved, hok, _⟩ := apply_all_or_nothing sampleCompiler_collisionless samplePlane samplePlane samplePlane_opened
    .refl sampleSetup sampleStored sampleSetup_next 0 (.ok true) m' w' hreturns
  obtain ⟨hstored, config, _, _, _, _, hlive⟩ := hok true rfl
  exact ⟨samplePlane_opened, m', w', r, config, hreturns, hreads, hwitnesses, hsaved, hstored, hr, hlive r hr⟩

end Parins.Manage
