/-
The filter service as configuration changes see it: its settings, local rules
and served policy, the preparation of a candidate, and its publication.
-/
import Parins.Manage.Material

namespace Parins.Manage
open Filters (Catalog SourceRecord)
open Lib (bind_eq_ok mapM_ok_mono)

structure Service where
  settings : FilterSettings := {}
  rules : Rules
  revision : Nat := 0
  previous : List Text := []
  inputDigest : Option Bytes := none
  records : List SourceRecord := []
  inputRules : Nat := 0
  readyPolicy : Bool := false
  unavailable : Option Text := none
  /-- The policy that queries are filtered by, and its generation. -/
  policy : Policy
  number : Nat := 1

structure ConfigCandidate where
  settings : FilterSettings
  rules : Rules
  expectedRevision : Nat
  inputRules : Nat
  policy : Policy
  digest : Bytes

/-- The environment's part in a preparation: whether the service is closed or its worker taken, which
limits are met, and what reading a rule file or a stored object gives. -/
structure Preparation where
  closed : Bool := false
  busy : Bool := false
  compiled : Except Error Unit := .ok ()
  file : Except Error Rules := .ok []
  /-- The store is open. -/
  opened : Bool := true
  disk : Except Error Unit := .ok ()
  /-- The objects in the store that pass verification, by the fingerprint of their source. -/
  verified : Hex → Bool := fun _ => true
  memory : Except Error Unit := .ok ()
  built : Except Error Unit := .ok ()
  /-- A request still uses a retired generation. -/
  retired : Bool := false

def LocalPolicySource.reusePolicy (source : LocalPolicySource) (rules : Rules) : Option Rules :=
  match source with
  | .inline new => if new = rules then some rules else none
  | .file _ => none

def LocalPolicySource.compile (source : LocalPolicySource) (x : Preparation) : Except Error Rules := do
  x.compiled
  match source with
  | .inline rules => return rules
  | .file _ => x.file

/-- The content that the catalog of the store has for a source. -/
def content (catalog : Catalog) (fingerprint : Hex) : Option Hex :=
  (catalog.records.find? fun r => r.fingerprint == fingerprint.val).bind fun r =>
    if h : r.sha256.length = 64 then some ⟨r.sha256, h⟩ else none

/-- The effective sources with their contents. -/
def FilterSettings.select (s : FilterSettings) (content : Hex → Option Hex) : Except Error (List Input) :=
  s.effective.mapM fun source =>
    match content source.fingerprint with
    | some sha256 => .ok ⟨source.id, source.fingerprint, sha256⟩
    | none => .error (.failure (ascii "subscription_material_missing"))

def FilterSettings.inputs (s : FilterSettings) (rules : Rules) (sources : List Input) : Inputs :=
  ⟨rules, sources, s.effective.map (·.response)⟩

namespace Service

variable (C : Compiler)

def checkOpen (x : Preparation) : Except Error Unit :=
  if x.closed then .error (.failure (ascii "subscription_cancelled")) else .ok ()

def checkRevision (s : Service) (x : Preparation) (revision : Nat) : Except Error Unit := do
  checkOpen x
  if s.revision = revision then .ok () else .error (.failure (ascii "revision_conflict"))

def acquire (x : Preparation) : Except Error Unit := do
  checkOpen x
  if x.busy then .error (.failure (ascii "busy")) else .ok ()

/-- The material of a candidate: its policy, its digest, and the count of rules that an unchanged
material keeps. -/
def material (s : Service) (x : Preparation) (catalog : Catalog) (settings : FilterSettings) (rules : Rules) :
    Except Error (Policy × Bytes × Option Nat) := do
  if x.opened then
    x.disk
    let sources ← settings.select fun f => if x.verified f then content catalog f else none
    x.memory
    let inputs := settings.inputs rules sources
    if s.inputDigest = some (C.digest inputs) then return (s.policy, C.digest inputs, some s.inputRules)
    x.built
    return (C.compile inputs, C.digest inputs, none)
  else if settings.effective = [] then
    x.memory
    return (C.compile { rules }, C.digest { rules }, none)
  else .error (.failure (ascii "subscription_storage_unavailable"))

def prepareConfigOwned (s : Service) (x : Preparation) (catalog : Catalog) (settings : FilterSettings) (rules : Rules)
    (expectedRevision : Nat) : Except Error ConfigCandidate := do
  s.checkRevision x expectedRevision
  let (policy, digest, preserved) ← s.material C x catalog settings rules
  -- a new policy needs the place of the retired generation
  if C.publicationDigest s.policy ≠ C.publicationDigest policy ∧ x.retired then .error (.failure (ascii "busy"))
  else return { settings, rules, expectedRevision, policy, digest, inputRules := preserved.getD policy.inputRules }

/-- The local rules of a candidate: those in service if the source has the same, else compiled. -/
def candidateRules (s : Service) (x : Preparation) (source : LocalPolicySource) (expectedRevision : Nat) :
    Except Error Rules :=
  match source.reusePolicy s.rules with
  | some rules => .ok rules
  | none => do
    s.checkRevision x expectedRevision
    source.compile x

def prepareConfigFromSource (s : Service) (x : Preparation) (catalog : Catalog) (settings : FilterSettings)
    (source : LocalPolicySource) (expectedRevision : Nat) : Except Error ConfigCandidate := do
  acquire x
  s.checkRevision x expectedRevision
  let rules ← s.candidateRules x source expectedRevision
  s.prepareConfigOwned C x catalog settings rules expectedRevision

/-- The clock and the random numbers of a rescheduling. -/
structure Schedule where
  now : Nat := 0
  jitter : Nat := 60
  spread : Nat := 0

def periodic (at_ hours spread : Nat) : Nat :=
  let period := hours * 3600
  let jitter := period / 10
  at_ + (period - jitter + spread % (2 * jitter + 1))

def retryCeiling (at_ hours : Nat) : Nat := at_ + max (hours * 3600) 60

def rescheduled (x : Schedule) (record : SourceRecord) (hours : Nat) : Nat :=
  let due :=
    if 0 < record.status.failures then
      min (record.status.nextUpdate.getD x.now) (retryCeiling (record.status.lastAttempt.getD x.now) hours)
    else periodic record.preparedAt hours x.spread
  if due ≤ x.now then x.now + (60 + x.jitter % 241) else due

/-- Whether the source's schedule starts anew under the settings that replace `old`. -/
def reschedules (old : FilterSettings) (source : SourceSettings) : Bool :=
  !old.enabled ||
    (old.sources.find? fun o => o.fingerprint == source.fingerprint).all fun o =>
      !o.enabled || !o.autoUpdate || o.updateIntervalHours != source.updateIntervalHours

/-- The records under new settings: the first record of each rescheduled source. -/
def reschedule (x : Schedule) (old new : FilterSettings) (records : List SourceRecord) : List SourceRecord :=
  (new.sources.filter fun s => new.enabled && s.enabled && s.autoUpdate && reschedules old s).foldl
    (fun records source =>
      match records.findIdx? fun r => r.fingerprint == source.fingerprint with
      | none => records
      | some i => records.modify i fun r =>
        { r with status := { r.status with nextUpdate := some (rescheduled x r source.updateIntervalHours) } })
    records

def publishConfig (s : Service) (x : Schedule) (candidate : ConfigCandidate) (newRevision : Nat) : Service :=
  { settings := candidate.settings
    rules := candidate.rules
    revision := newRevision
    previous := s.settings.fingerprints
    inputDigest := some candidate.digest
    records := reschedule x s.settings candidate.settings s.records
    inputRules := candidate.inputRules
    readyPolicy := true
    unavailable := none
    policy := if C.publicationDigest s.policy = C.publicationDigest candidate.policy then s.policy else candidate.policy
    number := if C.publicationDigest s.policy = C.publicationDigest candidate.policy then s.number else s.number + 1 }

/-- A refresh whose candidate was built for the settings in service: `material` is absent if no
selected content changed. -/
def commit (s : Service) (records : List SourceRecord) (material : Option Inputs) : Service :=
  match material with
  | none => { s with records := records }
  | some inputs =>
    let policy := C.compile inputs
    { s with
      inputRules := policy.inputRules
      readyPolicy := true
      inputDigest := some (C.digest inputs)
      unavailable := none
      records := records
      policy := if C.publicationDigest s.policy = C.publicationDigest policy then s.policy else policy
      number := if C.publicationDigest s.policy = C.publicationDigest policy then s.number else s.number + 1 }

end Service

/-! ### What a candidate holds -/

/-- The policy is that of the settings, the rules and the contents that the store has for the settings. -/
def Compiles (C : Compiler) (catalog : Catalog) (settings : FilterSettings) (rules : Rules) (policy : Policy)
    (digest : Bytes) : Prop :=
  ∃ sources, settings.select (content catalog) = .ok sources ∧ digest = C.digest (settings.inputs rules sources) ∧
    policy.Same (C.compile (settings.inputs rules sources))

/-- The served policy is the one of the settings and local rules in service. -/
structure Service.Current (C : Compiler) (catalog : Catalog) (s : Service) : Prop where
  ready : s.readyPolicy = true → s.inputDigest.isSome = true
  served : ∀ digest, s.inputDigest = some digest → Compiles C catalog s.settings s.rules s.policy digest

/-- The rules are written in the source, or are what a read of its file gave. -/
def LocalPolicySource.Gives (source : LocalPolicySource) (reads : List (Text × Rules)) (rules : Rules) : Prop :=
  match source with
  | .inline written => rules = written
  | .file path => (path, rules) ∈ reads

/-- The read of a preparation that gave these rules. -/
def LocalPolicySource.read (source : LocalPolicySource) (rules : Rules) : List (Text × Rules) :=
  match source with
  | .inline _ => []
  | .file path => [(path, rules)]

/-- What a candidate for these settings and this source holds. -/
structure ConfigCandidate.For (C : Compiler) (catalog : Catalog) (settings : FilterSettings)
    (source : LocalPolicySource) (c : ConfigCandidate) : Prop where
  settings : c.settings = settings
  rules : source.Gives (source.read c.rules) c.rules
  policy : Compiles C catalog c.settings c.rules c.policy c.digest

variable {C : Compiler} {catalog : Catalog} {s : Service} {x : Preparation} {settings : FilterSettings} {rules : Rules}
  {source : LocalPolicySource} {revision : Nat} {c : ConfigCandidate}

theorem LocalPolicySource.Gives.mono {reads reads'} (h : source.Gives reads rules) (hsub : reads ⊆ reads') :
    source.Gives reads' rules := by
  cases source with
  | inline written => exact h
  | file path => exact hsub h

theorem LocalPolicySource.gives_of_compile (h : source.compile x = .ok rules) :
    source.Gives (source.read rules) rules := by
  obtain ⟨_, _, h⟩ := bind_eq_ok.mp h
  cases source with
  | inline written =>
    cases h
    rfl
  | file path => exact List.mem_singleton_self _

theorem Policy.Same.trans {p q r : Policy} (h : p.Same q) (h' : q.Same r) : p.Same r :=
  ⟨h.1.trans h'.1, h.2.trans h'.2⟩

/-- What is selected among verified objects is selected without them. -/
theorem FilterSettings.select_verified {content : Hex → Option Hex} {verified : Hex → Bool} {sources}
    (h : settings.select (fun f => if verified f then content f else none) = .ok sources) :
    settings.select content = .ok sources := by
  refine mapM_ok_mono (fun source input hinput => ?_) h
  dsimp only at hinput
  by_cases hv : verified source.fingerprint = true
  · rwa [if_pos hv] at hinput
  · rw [if_neg hv] at hinput
    cases hinput

namespace Service

theorem material_ok (hC : C.Collisionless) (hs : s.Current C catalog) {policy digest preserved}
    (h : s.material C x catalog settings rules = .ok (policy, digest, preserved)) :
    Compiles C catalog settings rules policy digest := by
  unfold material at h
  split at h
  · obtain ⟨_, _, h⟩ := bind_eq_ok.mp h
    obtain ⟨sources, hsources, h⟩ := bind_eq_ok.mp h
    obtain ⟨_, _, h⟩ := bind_eq_ok.mp h
    have hsources := FilterSettings.select_verified hsources
    dsimp only at h
    split at h
    · rename_i heq
      cases h
      -- the material in service is the same, and its policy is served
      obtain ⟨sources', _, hdigest, hsame⟩ := hs.served _ heq
      rw [← hC.digest hdigest] at hsame
      exact ⟨sources, hsources, rfl, hsame⟩
    · obtain ⟨_, _, h⟩ := bind_eq_ok.mp h
      cases h
      exact ⟨sources, hsources, rfl, rfl, rfl⟩
  · split at h
    · rename_i hnone
      obtain ⟨_, _, h⟩ := bind_eq_ok.mp h
      cases h
      have hinputs : settings.inputs rules [] = { rules } := by rw [FilterSettings.inputs, hnone]; rfl
      refine ⟨[], by rw [FilterSettings.select, hnone]; rfl, ?_⟩
      rw [hinputs]
      exact ⟨rfl, rfl, rfl⟩
    · cases h

theorem candidateRules_ok (h : s.candidateRules x source revision = .ok rules) :
    source.Gives (source.read rules) rules := by
  unfold candidateRules at h
  split at h
  · rename_i r hreuse
    cases h
    cases source with
    | file path => cases hreuse
    | inline new =>
      simp only [LocalPolicySource.reusePolicy] at hreuse
      split at hreuse
      · rename_i heq
        cases hreuse
        exact heq.symm
      · cases hreuse
  · obtain ⟨_, _, h⟩ := bind_eq_ok.mp h
    exact LocalPolicySource.gives_of_compile h

theorem prepareConfigFromSource_ok (hC : C.Collisionless) (hs : s.Current C catalog)
    (h : s.prepareConfigFromSource C x catalog settings source revision = .ok c) : c.For C catalog settings source := by
  obtain ⟨_, _, h⟩ := bind_eq_ok.mp h
  obtain ⟨_, _, h⟩ := bind_eq_ok.mp h
  obtain ⟨rules, hrules, h⟩ := bind_eq_ok.mp h
  obtain ⟨_, _, h⟩ := bind_eq_ok.mp h
  obtain ⟨⟨policy, digest, preserved⟩, hmaterial, h⟩ := bind_eq_ok.mp h
  simp only at h
  split at h
  · cases h
  · cases h
    exact ⟨rfl, candidateRules_ok hrules, material_ok hC hs hmaterial⟩

/-- A policy that is not published again answers as the new one. -/
theorem published_same (hC : C.Collisionless) (p q : Policy) :
    (if C.publicationDigest p = C.publicationDigest q then p else q).Same q := by
  split
  · exact hC.publication ‹_›
  · exact ⟨rfl, rfl⟩

theorem publishConfig_current (hC : C.Collisionless) {schedule} (h : c.For C catalog settings source) :
    (s.publishConfig C schedule c revision).Current C catalog := by
  refine ⟨fun _ => rfl, fun digest hdigest => ?_⟩
  cases hdigest
  obtain ⟨sources, hsources, hdigest, hsame⟩ := h.policy
  exact ⟨sources, hsources, hdigest, (published_same hC _ _).trans hsame⟩

/-- The material of a refresh that leaves this catalog. -/
def Refreshes (catalog catalog' : Catalog) (s : Service) : Option Inputs → Prop
  | none => s.settings.select (content catalog') = s.settings.select (content catalog)
  | some inputs => ∃ sources, s.settings.select (content catalog') = .ok sources ∧
    inputs = s.settings.inputs s.rules sources

theorem commit_current (hC : C.Collisionless) {records material catalog'} (hs : s.Current C catalog)
    (h : s.Refreshes catalog catalog' material) : (s.commit C records material).Current C catalog' := by
  cases material with
  | none =>
    refine ⟨hs.ready, fun digest hdigest => ?_⟩
    obtain ⟨sources, hsources, hrest⟩ := hs.served digest hdigest
    exact ⟨sources, h.trans hsources, hrest⟩
  | some inputs =>
    obtain ⟨sources, hsources, rfl⟩ := h
    refine ⟨fun _ => rfl, fun digest hdigest => ?_⟩
    cases hdigest
    exact ⟨sources, hsources, rfl, published_same hC _ _⟩

end Service

end Parins.Manage
