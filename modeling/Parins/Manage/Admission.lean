/-
The programs of the management plane under interference. A transaction on DNS
changes the saved record only as it says; a section leaves sessions that are
valid for the manager that it leaves; a protected mutation holds the permit,
marked with its session, from before its work to its end.
-/
import Parins.Manage.Sections

namespace Parins.Manage
open Lib
open Lib.Exec (attempt memory modify ofExcept fail Sustains sustains_attempt sustains_ofExcept)

variable {lib : Library} {verify : Text → Text → Bool} {P : Rights} {C : Compiler} {t : Thread} {c : Cmd}
  {w : World} {m m0 : Manager} {h : Hold} {α β : Type}

/-! ### Transactions on DNS -/

/-- The program leaves the saved record and the Turnstile keys, and has only commands in `K`. -/
def Steady (K : Cmd → Bool) (p : Act α) : Prop :=
  ∀ m, p.Yields (fun c => K c = true) (fun _ m' => m'.saved = m.saved ∧ m'.turnstile = m.turnstile) m

variable {p : Act α} {g : Manager → Manager} {f : α → Act β}

section Steady
variable {K : Cmd → Bool}

theorem Steady.bind (h : Steady K p) (hf : ∀ a, Steady K (f a)) : Steady K (p >>= f) := by
  intro m
  refine (h m).bind ?_ fun _ _ _ hQ => hQ
  intro a m1 _ ⟨hsaved, hturnstile⟩
  refine (hf a m1).mono fun _ m2 _ ⟨hsaved', hturnstile'⟩ => ?_
  exact ⟨hsaved'.trans hsaved, hturnstile'.trans hturnstile⟩

theorem steady_pure (a : α) : Steady K (pure a) := fun _ => ⟨rfl, rfl⟩

theorem steady_fail (e) : Steady K (fail e : Act α) := fun _ => ⟨rfl, rfl⟩

theorem steady_ofExcept (x : Except Error α) : Steady K (ofExcept x) := fun _ => ⟨rfl, rfl⟩

theorem steady_memory : Steady K memory := fun _ => ⟨rfl, rfl⟩

theorem steady_call (hc : K c = true) : Steady K (call c) := fun _ _ _ _ _ _ => ⟨hc, rfl, rfl⟩

theorem steady_modify (hg : ∀ m, (g m).saved = m.saved ∧ (g m).turnstile = m.turnstile) :
    Steady K (modify g) := fun m => hg m

theorem Steady.attempt (h : Steady K p) : Steady K (attempt p) :=
  fun m => Program.Bears.bind (h m) fun _ _ hQ => hQ

theorem steady_doWhen {cond} {p : Act Unit} (hp : Steady K p) : Steady K (doWhen cond p) := by
  unfold doWhen
  split
  · exact hp
  · exact steady_pure ()

theorem steady_reapExited (hK : K .isFinished = true) (reason : Text) : Steady K (reapExited reason) := by
  refine steady_memory.bind fun m => ?_
  split
  · exact steady_pure ()
  · exact (steady_call hK).bind fun _ => steady_doWhen (steady_modify fun _ => ⟨rfl, rfl⟩)

theorem steady_readCredentials (missing : Error) : Steady K (readCredentials missing) := by
  refine steady_memory.bind fun m => ?_
  split
  · exact steady_pure _
  · exact steady_fail _

end Steady

theorem steady_prepareSnapshot (config : Config) : Steady Cmd.applies (prepareSnapshot lib config) :=
  (steady_ofExcept _).bind fun _ => (steady_call rfl).bind fun _ => steady_pure _

theorem steady_prepare (toml : Text) : Steady Cmd.applies (prepare lib toml) :=
  (steady_ofExcept _).bind fun _ => (steady_ofExcept _).bind fun config => (steady_call rfl).bind fun _ =>
    (steady_prepareSnapshot config).bind fun _ => (steady_call rfl).bind fun _ => steady_pure _

theorem steady_missingCertificates (config) (current : Snapshot) :
    Steady Cmd.applies (missingCertificates lib config current) := by
  unfold missingCertificates
  split
  · exact (steady_prepareSnapshot config).bind fun _ => steady_pure _
  · exact steady_pure _

theorem steady_start (toml) (restored : Bool) : Steady Cmd.applies (start lib toml restored) :=
  steady_memory.bind fun _ => (steady_ofExcept _).bind fun _ => (steady_ofExcept _).bind fun config =>
    (steady_call rfl).bind fun _ => (steady_ofExcept _).bind fun _ => (steady_call rfl).bind fun current =>
    (steady_missingCertificates config current).bind fun _ => (steady_call rfl).bind fun _ =>
    (steady_doWhen (steady_call rfl)).bind fun _ => Steady.bind (steady_modify fun _ => ⟨rfl, rfl⟩) fun _ => steady_pure _

theorem steady_publishCandidate (candidate : Option Snapshot) : Steady Cmd.applies (publishCandidate candidate) := by
  cases candidate with
  | none => exact steady_pure ()
  | some candidate => exact steady_call rfl

theorem steady_restore (toml restored) : Steady Cmd.applies (restore lib toml restored) := by
  refine steady_memory.bind fun m => ?_
  split
  · exact steady_modify fun _ => ⟨rfl, rfl⟩
  · refine (steady_start toml restored).attempt.bind fun out => ?_
    split
    · exact (steady_publishCandidate _).bind fun _ => steady_modify fun _ => ⟨rfl, rfl⟩
    · exact steady_modify fun _ => ⟨rfl, rfl⟩

theorem steady_retryStartup : Steady Cmd.applies (retryStartup lib) := by
  refine steady_memory.bind fun m => ?_
  split
  · exact steady_restore _ _
  · exact steady_fail _

theorem steady_restorePrevious (previous : Option Stored) : Steady Cmd.applies (restorePrevious lib previous) := by
  cases previous with
  | none => exact steady_pure ()
  | some previous => exact steady_restore _ _

theorem steady_cacheOnlyChange (next) (cache : CacheConfig) : Steady Cmd.applies (cacheOnlyChange lib next cache) := by
  refine steady_memory.bind fun m => ?_
  split
  · exact (steady_call rfl).bind fun _ => steady_pure _
  · exact steady_pure _

theorem steady_transportChange (toml : Text) : Steady Cmd.applies (transportChange lib toml) :=
  (steady_ofExcept _).bind fun _ => (steady_ofExcept _).bind fun _ => (steady_call rfl).bind fun _ => steady_pure _

theorem steady_startNext (next) (config : Config) (candidate : ConfigCandidate) :
    Steady Cmd.applies (startNext next config candidate) := by
  refine (steady_call rfl).bind fun unbound => ?_
  split
  · exact steady_fail _
  · exact (steady_call rfl).bind fun _ => (steady_call rfl).bind fun _ => (steady_call rfl).bind fun _ =>
      Steady.bind (steady_modify fun _ => ⟨rfl, rfl⟩) fun _ => steady_pure _

/-- The saved record after a transaction that was asked for `next`. -/
structure Settles (next : Stored) (m : Manager) (out : Except Error α) (m' : Manager) : Prop where
  turnstile : m'.turnstile = m.turnstile
  ok : ∀ a, out = .ok a → m'.saved = some next
  error : ∀ e, out = .error e → m'.saved = m.saved

variable {next : Stored}

theorem Steady.settles (h : Steady Cmd.applies p)
    (hf : ∀ a m, (f a).Yields (fun c => c.applies = true) (Settles next m) m) :
    (p >>= f).Yields (fun c => c.applies = true) (Settles next m) m := by
  refine (h m).bind ?_ fun e m' _ hm => ⟨hm.2, nofun, fun _ _ => hm.1⟩
  intro a m1 _ ⟨hsaved, hturnstile⟩
  refine (hf a m1).mono fun out m2 _ hs => ?_
  exact ⟨hs.turnstile.trans hturnstile, hs.ok, fun e he => (hs.error e he).trans hsaved⟩

theorem settles_return {a} (hg : ∀ m, (g m).saved = some next ∧ (g m).turnstile = m.turnstile) :
    ((do modify g; return a) : Act α).Yields (fun c => c.applies = true) (Settles next m) m :=
  ⟨(hg m).2, fun _ _ => (hg m).1, nofun⟩

theorem settles_fail {e} : (fail e : Act α).Yields (fun c => c.applies = true) (Settles next m) m :=
  ⟨rfl, nofun, fun _ _ => rfl⟩

theorem applyUpdates_settles (next) (m : Manager) :
    (applyUpdates lib next).Yields (fun c => c.applies = true) (Settles next m) m :=
  (steady_ofExcept _).settles fun _ _ => (steady_call rfl).settles fun _ _ =>
    Steady.settles (steady_modify fun _ => ⟨rfl, rfl⟩) fun _ _ => (steady_call rfl).settles fun _ _ =>
    settles_return fun _ => ⟨rfl, rfl⟩

theorem applyHot_settles (next config candidate replaceCache m) :
    (applyHot next config candidate replaceCache).Yields (fun c => c.applies = true) (Settles next m) m := by
  refine (steady_call rfl).settles fun finished m => ?_
  split
  · exact settles_fail
  · exact (steady_call rfl).settles fun _ _ => (steady_call rfl).settles fun _ _ =>
      Steady.settles (steady_modify fun _ => ⟨rfl, rfl⟩) fun _ _ => (steady_call rfl).settles fun _ _ =>
      settles_return fun _ => ⟨rfl, rfl⟩

theorem applyRestart_settles (next config transport candidate m) :
    (applyRestart lib next config transport candidate).Yields (fun c => c.applies = true) (Settles next m) m := by
  refine steady_memory.settles fun previous _ => Steady.settles (steady_modify fun _ => ⟨rfl, rfl⟩) fun _ _ =>
    (steady_startNext next config candidate).attempt.settles fun out m => ?_
  split
  · exact (steady_call rfl).settles fun _ _ => settles_return fun _ => ⟨rfl, rfl⟩
  · exact (steady_restorePrevious _).settles fun _ _ =>
      (steady_modify fun m => ⟨(noteStopped_keeps m _).2.1, (noteStopped_keeps m _).2.2.2⟩).settles fun _ _ => settles_fail

theorem apply_settles (next) (m : Manager) :
    (apply lib next).Yields (fun c => c.applies = true) (Settles next m) m := by
  refine steady_memory.settles fun _ _ => (steady_ofExcept _).settles fun only m => ?_
  split
  · exact applyUpdates_settles next m
  · refine steady_memory.settles fun _ _ => (steady_ofExcept _).settles fun _ _ =>
      (steady_prepare _).settles fun prepared _ => (steady_call rfl).settles fun candidate _ =>
      (steady_cacheOnlyChange _ _).settles fun hot m => ?_
    split
    · exact applyHot_settles next _ candidate _ m
    · exact applyRestart_settles next _ _ candidate m

/-! ### Interference -/

/-- The program keeps what its thread answers for, whatever the others do. -/
abbrev Keeps (verify : Text → Text → Bool) (P : Rights) (C : Compiler) (t : Thread) {M : Type}
    (p : Exec Cmd Ans M Error α) (Q : Except Error α → M → World → Prop) (m : M) (w : World) : Prop :=
  p.Sustains (effect C t) (Relies verify t) (Guards verify P t) Q m w

section Rules
variable {M : Type} {n : M} {post : Except Error (Ans c) → World → Prop}

theorem keeps_last (hc : Triple verify P C t h c post)
    (ha : h.At verify t w) : Keeps verify P C t (call c) (fun r n' w' => n' = n ∧ post r w') n w := by
  intro w1 hrely r w' he
  obtain ⟨hguards, hpost⟩ := hc w1 r w' (ha.stable hrely) he
  exact ⟨hguards, rfl, hpost⟩

theorem keeps_step {f}
    {Q : Except Error β → M → World → Prop} (hc : Triple verify P C t h c post) (ha : h.At verify t w)
    (hok : ∀ a w', post (.ok a) w' → Keeps verify P C t (f a) Q n w')
    (herr : ∀ e w', post (.error e) w' → Q (.error e) n w') : Keeps verify P C t (call c >>= f) Q n w := by
  refine Sustains.bind (keeps_last hc ha) ?_ ?_
  · rintro a _ w' ⟨rfl, hpost⟩
    exact hok a w' hpost
  · rintro e _ w' ⟨rfl, hpost⟩
    exact herr e w' hpost

theorem keeps_yields {K} {p : Exec Cmd Ans M Error α} {Q}
    (hK : ∀ c, K c → Triple verify P C t h c fun _ w' => h.At verify t w') (hp : p.Yields K Q n)
    (ha : h.At verify t w) : Keeps verify P C t p (fun out n' w' => Q out n' ∧ h.At verify t w') n w :=
  Program.Every.bears Hold.At.relies (fun c hc w r w' hw he => hK c hc w r w' hw he) hp ha

end Rules

/-- The commands that look, and start no work. -/
def Cmd.looks : Cmd → Bool
  | .work _ => false
  | c => c.quiet

theorem triple_looks (hc : c.looks = true) : Triple verify P C t h c fun _ w' => h.At verify t w' := by
  refine triple_quiet ?_ ?_
  · cases c <;> first | exact hc | cases hc
  · cases c <;> first | rfl | cases hc

/-! ### Sections -/

/-- What is known of the permit at the end. -/
abbrev Verdict (α : Type) := Except Error α → Option (Option Session) → Prop

/-- A section ends: the sessions are valid for the manager as it is now, which has other credentials or
another generation only if the thread has the permit. -/
def Leaves (verify : Text → Text → Bool) (t : Thread) (m0 : Manager) (R : Verdict α) (out : Except Error α)
    (m : Manager) (w : World) : Prop :=
  ∃ permit, Hold.At verify t ⟨permit, some (m0, m.credentials, m.turnstile.generation)⟩ w ∧
    (permit = none → m.credentials = m0.credentials ∧ m.turnstile.generation = m0.turnstile.generation) ∧ R out permit

def Outside (verify : Text → Text → Bool) (t : Thread) (R : Verdict α) (out : Except Error α) (w : World) : Prop :=
  ∃ permit, Hold.At verify t ⟨permit, none⟩ w ∧ R out permit

variable {good : Option Session → Prop}

section Sections
variable {R : Verdict α} {permit : Option (Option Session)} {detached : Bool}

theorem keeps_withManager (ha : Hold.At verify t ⟨permit, none⟩ w) (hR : ∀ e, R (.error e) permit)
    (hp : ∀ m w, Hold.At verify t ⟨permit, some (m, m.credentials, m.turnstile.generation)⟩ w →
      Keeps verify P C t p (Leaves verify t m R) m w) :
    Keeps verify P C t (withManager detached p) (fun out _ w => Outside verify t R out w) () w := by
  intro w1 hrely r w' he
  obtain ⟨hguards, hlock⟩ := triple_lock rfl w1 r w' (ha.stable hrely) he
  refine ⟨hguards, ?_⟩
  cases r with
  | error e => exact ⟨permit, hlock, hR e⟩
  | ok m =>
    refine Program.Bears.bind (hp m w' hlock) ?_
    intro out w2 ⟨permit', hat, hkeeps, hr⟩ w3 hrely3 r3 w4 he3
    obtain ⟨hguards3, hunlocked⟩ := triple_unlock rfl hkeeps w3 r3 w4 (hat.stable hrely3) he3
    exact ⟨hguards3, permit', hunlocked, hr⟩

theorem Manager.credentials_of_saved {m' : Manager} (h : m'.saved = m.saved) : m'.credentials = m.credentials := by
  rw [Manager.credentials, h, Manager.credentials]

theorem Steady.transaction {K} (hp : Steady K p) : p.Yields (fun c => K c = true)
      (fun _ m' => m'.credentials = m.credentials ∧ m'.turnstile.generation = m.turnstile.generation) m :=
  (hp m).mono fun _ _ _ ⟨hsaved, hturnstile⟩ => ⟨Manager.credentials_of_saved hsaved, by rw [hturnstile]⟩

theorem keeps_look (hp : Steady Cmd.looks p) (ha : Hold.At verify t ⟨permit, none⟩ w) :
    Keeps verify P C t (withManager detached p) (fun _ _ w => Hold.At verify t ⟨permit, none⟩ w) () w := by
  refine (keeps_withManager (R := fun _ q => q = permit) ha (fun _ => rfl) ?_).mono ?_
  · intro m w hat
    refine (keeps_yields (fun c hc => triple_looks hc) hp.transaction hat).mono ?_
    intro out m' w' ⟨⟨hcredentials, hgeneration⟩, hat'⟩
    refine ⟨permit, ?_, fun _ => ⟨hcredentials, hgeneration⟩, rfl⟩
    rw [hcredentials, hgeneration]
    exact hat'
  · rintro out _ w' ⟨_, hat, rfl⟩
    exact hat

end Sections

/-! ### Programs that hold nothing at their end -/

/-- Begun with nothing held, the program ends with nothing held. -/
def Serves (verify : Text → Text → Bool) (P : Rights) (C : Compiler) (t : Thread) (p : Handler α) : Prop :=
  ∀ w, Hold.At verify t {} w → Keeps verify P C t p (fun _ _ w => Hold.At verify t {} w) () w

section Serves
variable {p : Handler α} {f : α → Handler β}

theorem Serves.bind (hp : Serves verify P C t p) (hf : ∀ a, Serves verify P C t (f a)) : Serves verify P C t (p >>= f) :=
  fun w ha => Sustains.bind (hp w ha) (fun a _ w ha => hf a w ha) fun _ _ _ ha => ha

theorem serves_ofExcept {x : Except Error α} (hf : ∀ a, x = .ok a → Serves verify P C t (f a)) :
    Serves verify P C t (ofExcept x >>= f) :=
  fun w ha => sustains_ofExcept (fun a hx => hf a hx w ha) fun _ _ => ha

theorem serves_call (hc : c.looks = true) : Serves verify P C t (call c) :=
  fun _ ha => (keeps_last (triple_looks hc) ha).mono fun _ _ _ hout => hout.2

end Serves

theorem serves_look {detached} (hp : Steady Cmd.looks p) : Serves verify P C t (withManager detached p) :=
  fun _ ha => keeps_look hp ha

/-! ### The permit -/

def Held (_ : Except Error α) (permit : Option (Option Session)) : Prop := ∃ admitted, permit = some admitted

/-- The permit is held after a result, and was given back after an error. -/
def Takes (good : Option Session → Prop) (out : Except Error α) (permit : Option (Option Session)) : Prop :=
  match out with
  | .ok _ => ∃ admitted, permit = some admitted ∧ good admitted
  | .error _ => permit = none

/-- Begun with nothing held, the program takes the permit, or fails and holds nothing. -/
def Obtains (verify : Text → Text → Bool) (P : Rights) (C : Compiler) (t : Thread) (good : Option Session → Prop)
    (p : Handler Unit) : Prop :=
  ∀ w, Hold.At verify t {} w → Keeps verify P C t p (fun out _ w => Outside verify t (Takes good) out w) () w

/-- Begun with the permit, the program ends with it. -/
def Works (verify : Text → Text → Bool) (P : Rights) (C : Compiler) (t : Thread) (good : Option Session → Prop)
    (p : Handler α) : Prop :=
  ∀ admitted w, good admitted → Hold.At verify t ⟨some admitted, none⟩ w →
    Keeps verify P C t p (fun out _ w => Outside verify t Held out w) () w

/-- Begun with the permit, the section ends with it and leaves valid sessions. -/
def Commits (verify : Text → Text → Bool) (P : Rights) (C : Compiler) (t : Thread) (p : Act α) : Prop :=
  ∀ admitted m w, Hold.At verify t ⟨some admitted, some (m, m.credentials, m.turnstile.generation)⟩ w →
    Keeps verify P C t p (Leaves verify t m Held) m w

section Permits
variable {headers : Headers} {transport : Snapshot} {M : Type} {n : M} {admitted : Option Session} {out : Except Error α}

theorem Hold.At.held (ha : Hold.At verify t ⟨some admitted, none⟩ w) : Outside verify t Held out w :=
  ⟨_, ha, admitted, rfl⟩

theorem Hold.At.leaves (ha : Hold.At verify t ⟨some admitted, some (m0, m.credentials, m.turnstile.generation)⟩ w) :
    Leaves verify t m0 Held out m w := ⟨_, ha, nofun, admitted, rfl⟩

theorem keeps_orRelease {p : Handler α}
    (hp : Keeps verify P C t p (fun out _ w => ∃ admitted, Hold.At verify t ⟨some admitted, none⟩ w ∧
      ∀ a, out = .ok a → good admitted) () w) :
    Keeps verify P C t (orRelease p) (fun out _ w => Outside verify t (Takes good) out w) () w := by
  refine sustains_attempt hp ?_
  rintro out _ w' ⟨admitted, hat, hgood⟩
  cases out with
  | ok a => exact ⟨_, hat, admitted, rfl, hgood a rfl⟩
  | error e =>
    exact keeps_step (triple_releasePermit rfl) hat (fun _ _ hat' => ⟨none, hat', rfl⟩) fun _ _ hat' => ⟨none, hat', rfl⟩

theorem serves_authorized (hP : P.presents headers) : Serves verify P C t (authorized headers transport) := by
  intro w ha
  refine keeps_step (triple_findSession hP rfl) ha ?_ fun _ _ hat => hat
  intro found w' hat
  cases found with
  | none => exact hat
  | some session => exact hat

theorem keeps_authorized (hP : P.presents headers) (hp : h.permit = some admitted) (ha : h.At verify t w) :
    Keeps verify P C t (authorized headers transport)
      (fun out n' w' => n' = n ∧ ∃ admitted', Hold.At verify t ⟨some admitted', h.inside⟩ w' ∧
        ∀ a, out = .ok a → admitted'.isSome = true) n w := by
  refine keeps_step (triple_findSession_admits hP hp) ha ?_ fun _ _ hat => ⟨rfl, _, hat, nofun⟩
  intro found w' hat
  cases found with
  | none => exact ⟨rfl, _, hat, nofun⟩
  | some session => exact ⟨rfl, _, hat, fun _ _ => rfl⟩

theorem obtains_tryPermit : Obtains verify P C t (fun _ => True) tryPermit := by
  intro w ha
  refine keeps_step triple_tryPermit ha ?_ ?_
  · rintro taken w' (⟨heq, hat⟩ | ⟨heq, hat⟩)
    · cases heq
      exact ⟨_, hat, none, rfl, trivial⟩
    · cases heq
      exact ⟨_, hat, rfl⟩
  · rintro e w' (⟨heq, _⟩ | ⟨heq, _⟩)
    · cases heq
    · cases heq

variable {p : Handler Unit}

/-- A check that follows the permit. -/
theorem Obtains.orRelease {good' : Option Session → Prop} {q : Handler Unit} (hp : Obtains verify P C t good p)
    (hq : ∀ admitted w, Hold.At verify t ⟨some admitted, none⟩ w →
      Keeps verify P C t q (fun out _ w => ∃ admitted, Hold.At verify t ⟨some admitted, none⟩ w ∧
        ∀ a, out = .ok a → good' admitted) () w) : Obtains verify P C t good' (p >>= fun _ => orRelease q) := by
  intro w ha
  refine Sustains.bind (hp w ha) ?_ fun _ _ _ hout => hout
  rintro _ _ w' ⟨_, hat, admitted, rfl, _⟩
  exact keeps_orRelease (hq admitted w' hat)

theorem obtains_mutationPermit : Obtains verify P C t (fun _ => True) mutationPermit := by
  refine obtains_tryPermit.orRelease fun admitted w ha => ?_
  refine Sustains.bind (keeps_look (steady_call rfl) ha) ?_ fun _ _ _ hat => ⟨admitted, hat, nofun⟩
  intro frozen _ w' hat
  split
  · exact ⟨admitted, hat, nofun⟩
  · exact ⟨admitted, hat, fun _ _ => trivial⟩

theorem Obtains.authorized (hp : Obtains verify P C t good p) (hP : P.presents headers) :
    Obtains verify P C t (fun admitted => admitted.isSome = true)
      (p >>= fun _ => Manage.orRelease (authorized headers transport)) :=
  hp.orRelease fun _ _ ha => (keeps_authorized hP rfl ha).mono fun _ _ _ hout => hout.2

variable {q : Handler α}

theorem keeps_releasing (hq : Works verify P C t good q) (hgood : good admitted)
    (ha : Hold.At verify t ⟨some admitted, none⟩ w) :
    Keeps verify P C t (releasing q) (fun _ _ w => Hold.At verify t {} w) () w := by
  refine sustains_attempt (hq admitted w hgood ha) ?_
  rintro out _ w' ⟨_, hat, admitted, rfl⟩
  exact keeps_step (triple_releasePermit rfl) hat (fun _ _ hat' => hat') fun _ _ hat' => hat'

theorem Obtains.serves (hp : Obtains verify P C t good p) (hq : Works verify P C t good q) :
    Serves verify P C t (p >>= fun _ => releasing q) := by
  intro w ha
  refine Sustains.bind (hp w ha) ?_ ?_
  · rintro _ _ w' ⟨_, hat, admitted, rfl, hgood⟩
    exact keeps_releasing hq hgood hat
  · rintro e _ w' ⟨_, hat, rfl⟩
    exact hat

theorem Works.work {route} (hq : Works verify P C t (fun _ => True) q) :
    Works verify P C t (fun admitted => admitted.isSome = true) (call (.work route) >>= fun _ => q) :=
  fun admitted _ hsome ha =>
    keeps_step (triple_work rfl hsome) ha (fun _ w ha => hq admitted w trivial ha) fun _ _ ha => ha.held

theorem Commits.works {p : Act α} {detached} (hp : Commits verify P C t p) :
    Works verify P C t good (withManager detached p) :=
  fun admitted _ _ ha => keeps_withManager ha (fun _ => ⟨admitted, rfl⟩) fun m w ha => hp admitted m w ha

/-- A transaction on DNS that keeps the credentials and the generation. -/
theorem commits_yields {p : Act α} (hp : ∀ m, p.Yields (fun c => c.applies = true)
      (fun _ m' => m'.credentials = m.credentials ∧ m'.turnstile.generation = m.turnstile.generation) m) :
    Commits verify P C t p := by
  intro admitted m w ha
  refine (keeps_yields (fun c hc => triple_applies hc) (hp m) ha).mono ?_
  rintro out m' w ⟨⟨hcredentials, hgeneration⟩, ha⟩
  rw [← hcredentials, ← hgeneration] at ha
  exact ha.leaves

end Permits

end Parins.Manage
