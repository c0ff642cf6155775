/-
The requests and tasks of the management plane, one by one and under interference:
none holds anything at its end, each issues sessions and starts its work as its
route allows.
-/
import Parins.Manage.Admission

namespace Parins.Manage
open Lib
open Lib.Exec (modify ofExcept Sustains sustains_ofExcept sustains_memory sustains_modify)

variable {lib : Library} {verify : Text → Text → Bool} {P : Rights} {C : Compiler} {t : Thread} {w : World}
  {m : Manager} {headers : Headers} {transport : Snapshot}

/-! ### Sign-in and setup -/

theorem Credentials.isFor_eq {c : Credentials} (h : c.isFor m.saved = true) : m.credentials = some c := by
  unfold Credentials.isFor at h
  unfold Manager.credentials
  cases hs : m.saved with
  | none => simp [hs] at h
  | some saved =>
    obtain ⟨hname, hhash⟩ : saved.username = c.username ∧ saved.passwordHash = c.passwordHash := by simpa [hs] using h
    rw [Option.map_some, Stored.credentials, hname, hhash]

variable {username password : Text}

/-- The last section of a login issues a session for what it verified, if that is still current. -/
theorem keeps_issue {verified : Credentials} {generation}
    (hpassword : verifyPassword verify verified.passwordHash password = true) (hname : username = verified.username)
    (hP : ∀ g : Grant, g.proof = some (username, password) → P.issues g)
    (ha : Hold.At verify t ⟨none, some (m, m.credentials, m.turnstile.generation)⟩ w) :
    Keeps verify P C t (issue transport verified generation username password)
      (Leaves verify t m fun _ permit => permit = none) m w := by
  refine sustains_memory ?_
  split
  · exact ⟨none, ha, fun _ => ⟨rfl, rfl⟩, rfl⟩
  · rename_i hcurrent
    simp only [Bool.or_eq_true, Bool.not_eq_true', bne_iff_ne, ne_eq, not_or, Bool.not_eq_false, not_not] at hcurrent
    obtain ⟨hfor, hgeneration⟩ := hcurrent
    refine (keeps_last (triple_session rfl ?_ (hP _ rfl)) ha).mono ?_
    · refine ⟨Credentials.isFor_eq hfor, hgeneration.symm, rfl, ?_⟩
      intro username' password' heq
      cases heq
      exact ⟨hpassword, hname⟩
    · rintro out _ w' ⟨rfl, hat⟩
      exact ⟨none, hat, fun _ => ⟨rfl, rfl⟩, rfl⟩

theorem serves_login {loopback} (hP : ∀ g : Grant, g.proof = some (username, password) → P.issues g) :
    Serves verify P C t (login verify loopback username password transport) := by
  refine (serves_call rfl).bind fun _ => serves_ofExcept fun _ _ => (serves_look (steady_readCredentials _)).bind
    fun saved =>
    (serves_look (steady_memory.bind fun _ => steady_pure _)).bind fun turnstile => ?_
  have hwork : Serves verify P C t
      (do call .io
          ofExcept (if verifyPassword verify saved.passwordHash password && secretMatches username saved.username
            then .ok () else .error loginFailed)
          withManager false (issue transport saved turnstile.generation username password)) := by
    refine (serves_call rfl).bind fun _ => serves_ofExcept fun _ hverified w ha => ?_
    have hboth : verifyPassword verify saved.passwordHash password = true ∧ username = saved.username := by
      split at hverified
      · rename_i hboth
        rw [Bool.and_eq_true, secretMatches_iff] at hboth
        exact hboth
      · cases hverified
    refine (keeps_withManager (R := fun _ permit => permit = none) ha (fun _ => rfl) fun m w ha =>
      keeps_issue hboth.1 hboth.2 hP ha).mono ?_
    rintro out _ w ⟨_, ha, rfl⟩
    exact ha
  by_cases hasked : (turnstile.keys.isSome && !loopback) = true
  · rw [if_pos hasked]
    exact (serves_call rfl).bind fun _ => hwork
  · rw [if_neg hasked]
    exact hwork

theorem Hold.At.unsaved {permit m0 saved n n'} (ha : Hold.At verify t ⟨permit, some (m0, none, n)⟩ w) :
    Hold.At verify t ⟨permit, some (m0, saved, n')⟩ w := by
  obtain ⟨hlock, hmanager, hvalid⟩ := ha.inside _ _ _ rfl
  refine ⟨ha.inv, ha.bare, ha.permit, nofun, ?_⟩
  intro _ _ _ heq
  cases heq
  exact ⟨hlock, hmanager, fun x hx => nomatch (hvalid x hx).credentials⟩

theorem keeps_setupSession {admitted m0} {credentials : Credentials} (hsaved : m.credentials = some credentials)
    (hP : ∀ n r, P.issues ⟨credentials, n, r, none⟩)
    (ha : Hold.At verify t ⟨some admitted, some (m0, m.credentials, m.turnstile.generation)⟩ w) :
    Keeps verify P C t (setupSession transport credentials) (Leaves verify t m0 Held) m w := by
  refine sustains_memory (keeps_step (triple_looks rfl) ha (fun next w ha => ?_) fun _ _ ha => ha.leaves)
  split
  · exact keeps_step (triple_session rfl ⟨hsaved, rfl, rfl, nofun⟩ (hP _ _)) ha (fun _ _ ha => ha.leaves)
      fun _ _ ha => ha.leaves
  · exact ha.leaves

theorem commits_setupSection {toml : Text} (hP : ∀ hash n r, P.issues ⟨⟨username, hash⟩, n, r, none⟩) :
    Commits verify P C t (setupSection lib headers transport username password toml) := by
  intro admitted m w ha
  refine sustains_memory ?_
  split
  · exact ha.leaves
  · rename_i hunsaved
    refine keeps_step (triple_looks rfl) ha (fun expected w ha => ?_) fun _ _ ha => ha.leaves
    refine sustains_ofExcept (fun _ _ => ?_) fun _ _ => ha.leaves
    refine sustains_ofExcept (fun _ _ => ?_) fun _ _ => ha.leaves
    refine sustains_ofExcept (fun _ _ => ?_) fun _ _ => ha.leaves
    refine keeps_step (triple_looks rfl) ha (fun hash w ha => ?_) fun _ _ ha => ha.leaves
    have hnone : m.credentials = none := by rw [Manager.credentials, hunsaved, Option.map_none]
    -- no session is valid without saved credentials, so from here on they are valid for any
    have hany : ∀ {w m'}, Hold.At verify t ⟨some admitted, some (m, m.credentials, m.turnstile.generation)⟩ w →
        Hold.At verify t ⟨some admitted, some (m, Manager.credentials m', m'.turnstile.generation)⟩ w := by
      intro w m' ha
      rw [hnone] at ha
      exact ha.unsaved
    refine Sustains.bind (keeps_yields (fun c hc => triple_applies hc) (steady_transportChange toml m) ha) ?_
      fun _ _ _ h => (hany h.2).leaves
    rintro _ m1 w ⟨_, ha⟩
    refine Sustains.bind (keeps_yields (fun c hc => triple_applies hc) (apply_settles _ m1) ha) ?_
      fun _ _ _ h => (hany h.2).leaves
    rintro _ m2 w ⟨hsettles, ha⟩
    refine keeps_setupSession ?_ (hP hash) (hany ha)
    rw [Manager.credentials, hsettles.ok _ rfl]
    rfl

/-! ### Protected mutations -/

variable {currentPassword : Text} {route : Route} {α : Type}

theorem serves_change {prepare : Handler α} {commit : α → Act Unit} (hH : P.presents headers)
    (hprepare : Serves verify P C t prepare) (hcommit : ∀ a, Commits verify P C t (commit a)) :
    Serves verify P C t (change verify route headers transport currentPassword prepare commit) := by
  refine serves_ofExcept fun _ _ => (serves_call rfl).bind fun _ => (serves_look (steady_readCredentials _)).bind fun _ =>
    (serves_call rfl).bind fun _ => serves_ofExcept fun _ _ => hprepare.bind fun prepared =>
    (obtains_mutationPermit.authorized hH).serves (Commits.works fun admitted m w ha => ?_)
  -- the session is looked for once more inside the section, and its work starts with the one found there
  refine Sustains.bind (keeps_authorized hH rfl ha) ?_ ?_
  · rintro _ _ w ⟨rfl, admitted', ha, hsome⟩
    refine sustains_memory ?_
    split
    · exact keeps_step (triple_work rfl (hsome _ rfl)) ha (fun _ w ha => hcommit prepared admitted' _ w ha)
        fun _ _ ha => ha.leaves
    · exact ha.leaves
  · rintro e _ w ⟨rfl, admitted', ha, _⟩
    exact ha.leaves

theorem keeps_revoke {admitted m0 saved n g} (ha : Hold.At verify t ⟨some admitted, some (m0, saved, n)⟩ w) :
    Keeps verify P C t (do modify g; call .clearSessions) (Leaves verify t m0 Held) m w := by
  refine sustains_modify ((keeps_last (triple_clearSessions (g m).credentials (g m).turnstile.generation rfl) ha).mono ?_)
  rintro out _ w ⟨rfl, rfl, ha⟩
  exact ha.leaves

theorem commits_commitCredentials {hash : Text} : Commits verify P C t (commitCredentials username hash) := by
  intro admitted m w ha
  refine sustains_memory ?_
  split
  · exact ha.leaves
  · exact keeps_step (triple_applies rfl) ha (fun _ w ha => keeps_revoke ha) fun _ _ ha => ha.leaves

theorem commits_commitTurnstile {setting : Option Setting} : Commits verify P C t (commitTurnstile setting) := by
  intro admitted m w ha
  refine sustains_memory (sustains_ofExcept (fun next _ => ?_) fun _ _ => ha.leaves)
  exact keeps_step (triple_persist rfl) ha (fun _ w ha => keeps_revoke ha) fun _ _ ha => ha.leaves

theorem configSection_yields {allowHttpDowngrade : Bool} {toml : Option Text} {revision : Nat} (m) :
    (configSection lib toml revision allowHttpDowngrade).Yields (fun c => c.applies = true)
      (fun _ m' => m'.credentials = m.credentials ∧ m'.turnstile.generation = m.turnstile.generation) m := by
  refine sustains_memory ?_
  split
  · exact ⟨rfl, rfl⟩
  · rename_i saved hsaved
    refine sustains_ofExcept (fun _ _ => ?_) fun _ _ => ⟨rfl, rfl⟩
    split
    · exact ⟨rfl, rfl⟩
    · rename_i document hdocument
      refine Sustains.bind (steady_transportChange document m) ?_
        fun _ _ _ ⟨hsaved1, hturnstile1⟩ => ⟨Manager.credentials_of_saved hsaved1, by rw [hturnstile1]⟩
      intro downgrades m1 _ ⟨hsaved1, hturnstile1⟩
      have hm1 := Manager.credentials_of_saved hsaved1
      refine sustains_ofExcept (fun _ _ => ?_) fun _ _ => ⟨hm1, by rw [hturnstile1]⟩
      split
      · exact ⟨hm1, by rw [hturnstile1]⟩
      · rename_i next hnext
        have hnext : next.credentials = saved.credentials := by
          simp only [Call.next] at hnext
          split at hnext <;> cases hnext
          rfl
        refine Sustains.bind (apply_settles next m1) ?_ fun e m2 _ hs =>
          ⟨(Manager.credentials_of_saved (hs.error _ rfl)).trans hm1, by rw [hs.turnstile, hturnstile1]⟩
        intro _ m2 _ hs
        refine ⟨?_, by rw [hs.turnstile, hturnstile1]⟩
        rw [Manager.credentials, Manager.credentials, hs.ok _ rfl, hsaved, Option.map_some, Option.map_some, hnext]

theorem works_elsewhere {detached} (good) : Works verify P C t good (do withManager detached (call .io); call .io) := by
  intro admitted w _ ha
  refine Sustains.bind (keeps_look (steady_call rfl) ha) (fun _ _ w ha => ?_) fun _ _ _ ha => ha.held
  exact (keeps_last (triple_looks rfl) ha).mono fun _ _ _ ⟨_, ha⟩ => ha.held

theorem serves_retry {reason} : Serves verify P C t ((Request.retry reason).serve lib verify transport) := by
  refine (serves_look (steady_reapExited rfl reason)).bind fun _ => obtains_tryPermit.serves (Commits.works ?_)
  refine commits_yields fun m => Steady.transaction ?_
  refine (steady_reapExited rfl reason).bind fun _ => steady_memory.bind fun _ => ?_
  split
  · exact steady_retryStartup
  · exact steady_pure _

theorem serves_background : Serves verify P C t (Request.background.serve lib verify transport) := by
  intro w ha
  refine keeps_step triple_acquirePermit ha (fun _ w ha => ?_) fun _ _ hfailed => nomatch hfailed.1
  exact keeps_releasing (works_elsewhere fun _ => True) trivial ha.2

/-! ### Requests -/

def Request.sent : Request → Option Headers
  | .look headers | .setup headers .. | .logout headers | .rotate headers .. | .turnstile headers ..
  | .config headers .. | .mutation _ _ headers | .update _ headers => some headers
  | _ => none

/-- Only a login and a setup issue sessions: for the name and password that were sent, and for the
credentials that are set up. -/
def Request.rights (request : Request) : Rights where
  issues grant :=
    match request with
    | .login _ username password => grant.proof = some (username, password)
    | .setup _ username .. => grant.proof = none ∧ grant.credentials.username = username
    | _ => False
  presents headers := request.sent = some headers

theorem serves_request (request : Request) : Serves verify request.rights C t (request.serve lib verify transport) := by
  cases request with
  | look headers => exact fun _ ha => keeps_step (triple_findSession rfl rfl) ha (fun _ _ ha => ha) fun _ _ ha => ha
  | login loopback username password => exact (serves_login fun _ hproof => hproof).bind fun _ _ ha => ha
  | setup headers username password toml =>
    refine (serves_call rfl).bind fun _ => obtains_mutationPermit.serves (Commits.works (commits_setupSection ?_))
    exact fun _ _ _ => ⟨rfl, rfl⟩
  | logout headers => exact fun _ ha => (keeps_last triple_revokeSession ha).mono fun _ _ _ hout => hout.2
  | rotate =>
    exact (serves_authorized rfl).bind fun _ => serves_ofExcept fun _ _ => serves_ofExcept fun _ _ =>
      serves_change rfl (serves_call rfl) fun _ => commits_commitCredentials
  | turnstile =>
    exact (serves_authorized rfl).bind fun _ => serves_ofExcept fun _ _ =>
      serves_change rfl (fun _ ha => ha) fun _ => commits_commitTurnstile
  | config =>
    exact (serves_authorized rfl).bind fun _ =>
      (obtains_mutationPermit.authorized rfl).serves (commits_yields configSection_yields).works.work
  | mutation =>
    exact (serves_authorized rfl).bind fun _ => (obtains_mutationPermit.authorized rfl).serves (works_elsewhere _).work
  | update =>
    exact (serves_authorized rfl).bind fun _ =>
      (obtains_tryPermit.authorized rfl).serves (works_elsewhere _).work
  | retry reason => exact serves_retry
  | scheduled => exact obtains_mutationPermit.serves (works_elsewhere _)
  | background => exact serves_background

theorem serves_program (request : Request) : Serves verify request.rights C t (request.program lib verify) :=
  (serves_call rfl).bind fun _ => (serves_call rfl).bind fun _ => serves_request request

end Parins.Manage
