/-
The updater and crashes: whatever the helper is cut off in, the live program is
the one that the journal answers for, or the old one can be put back.
-/
import Parins.Update.Requests

namespace Parins.Update
open Lib

variable {sha : Bytes → Text} {d d' : Disk}

/-! ### One move -/

/-- The operation leaves the journal's identity to answer for the live program. -/
def Phase.Settled (p : Phase) : Prop := p.precommit = true ∨ p.terminal = true ∧ p ≠ .manualRequired

variable {p : Phase}

theorem Phase.holds_iff : p.holds = true ↔ ¬p.Settled := by
  unfold Settled
  cases p <;> decide

theorem Phase.holds_of_committed (h : p.committed = true) : p.holds = true := by simp [holds, h]

theorem Disk.Backup.congr {op op' : Operation} (h : d.Backup sha op) (hsame : op.Same op')
    (hcopy : d'.file op.status.operationId .previous = d.file op.status.operationId .previous) : d'.Backup sha op' := by
  obtain ⟨copy, hfile, hsha⟩ := h
  exact ⟨copy, by rw [hsame.id, hcopy]; exact hfile, by rw [hsame.old]; exact hsha⟩

namespace Anchored

variable {op op' : Operation} {j : Journal}

theorem of_settled (hop : d.journal.operation = some op) (hphase : op.status.phase.Settled)
    (hlive : sha d.live = d.journal.installed.sha256)
    (hold : op.status.phase.precommit = true → d.journal.installed = op.old) : Anchored sha d := by
  have hholds : ¬op.status.phase.holds = true := fun h => Phase.holds_iff.mp h hphase
  refine ⟨fun _ => hlive, fun o ho hp => ?_, fun o ho hp => ?_, fun o ho hp => ?_⟩ <;> rw [hop] at ho <;> cases ho
  · exact hold (hp.resolve_right hholds)
  · exact absurd hp hholds
  · rw [hp] at hholds
    exact absurd rfl hholds

theorem of_holds (hop : d.journal.operation = some op) (hphase : op.status.phase.holds = true)
    (hold : d.journal.installed = op.old)
    (hlive : sha d.live = op.old.sha256 ∨ sha d.live = op.candidate.sha256 ∧ d.Backup sha op)
    (hready : op.status.phase = .awaitingReadiness → sha d.live = op.old.sha256) : Anchored sha d := by
  refine ⟨fun h => ?_, fun o ho _ => ?_, fun o ho _ => ?_, fun o ho hp => ?_⟩
  · exact absurd (h op hop) (Phase.holds_iff.mp hphase)
  all_goals
    rw [hop] at ho
    cases ho
  · exact hold
  · exact hlive
  · exact hready hp

theorem live_same (h : Anchored sha d) (hop : d.journal.operation = some op) (hphase : op.status.phase.holds = true)
    (hsame : op.Same op') (hcandidate : op'.candidate = op.candidate) {mark} : sha d.live = op'.old.sha256 ∨
      sha d.live = op'.candidate.sha256 ∧ ({ d with journal := j, mark := mark } : Disk).Backup sha op' := by
  rcases h.live op hop hphase with hlive | ⟨hlive, hbackup⟩
  · exact .inl (by rw [hsame.old]; exact hlive)
  · exact .inr ⟨by rw [hcandidate]; exact hlive, hbackup.congr hsame rfl⟩

theorem advance (h : Anchored sha d) (hop : d.journal.operation = some op) (hsame : op.Same op')
    (ha : Advances sha d op op') (mark) :
    Anchored sha { d with journal := { d.journal with operation := some op' }, mark := mark } := by
  cases ha with
  | prepare before after =>
    have hlive : sha d.live = d.journal.installed.sha256 :=
      h.settled fun o ho => by rw [hop] at ho; cases ho; exact .inl before
    exact of_settled rfl (.inl after) hlive fun _ => (h.old op hop (.inl before)).trans hsame.old.symm
  | commit q _ _ before after candidate =>
    have hpre : op.status.phase.precommit = true := by rw [before]; rfl
    have hold : d.journal.installed = op.old := h.old op hop (.inl hpre)
    have hlive : sha d.live = op'.old.sha256 := by
      rw [hsame.old, ← hold]
      exact h.settled fun o ho => by rw [hop] at ho; cases ho; exact .inl hpre
    exact of_holds rfl (by rw [after]; rfl) (hold.trans hsame.old.symm) (.inl hlive) fun _ => hlive
  | proceed before after candidate restored =>
    have hholds := Phase.holds_of_committed before
    exact of_holds rfl (Phase.holds_of_committed after) ((h.old op hop (.inr hholds)).trans hsame.old.symm)
      (h.live_same hop hholds hsame candidate) fun hp => by rw [hsame.old]; exact restored hp

theorem finish (h : Anchored sha d) (hop : d.journal.operation = some op) (hsame : op.Same op') (he : Ends sha d op op')
    (mark) : Anchored sha { d with journal := d.journal.settled op', mark := mark } := by
  cases he with
  | early before after =>
    have hphase : op'.status.phase.terminal = true ∧ op'.status.phase ≠ .manualRequired := by
      rcases after with h | h <;> rw [h] <;> decide
    have hlive : sha d.live = d.journal.installed.sha256 :=
      h.settled fun o ho => by rw [hop] at ho; cases ho; exact .inl before
    refine of_settled rfl (.inr hphase) hlive fun hpre => ?_
    rw [Phase.not_terminal_of_precommit hpre] at hphase
    cases hphase.1
  | rolledBack before after restored =>
    have hlive : sha d.live = d.journal.installed.sha256 := by
      rw [h.old op hop (.inr (Phase.holds_of_committed before))]
      exact restored
    refine of_settled rfl (.inr (by rw [after]; decide)) hlive fun hpre => ?_
    rw [after] at hpre
    cases hpre
  | manual before after candidate =>
    have hholds := Phase.holds_of_committed before
    refine of_holds rfl (by rw [after]; rfl) ((h.old op hop (.inr hholds)).trans hsame.old.symm)
      (h.live_same hop hholds hsame candidate) fun hp => ?_
    rw [after] at hp
    cases hp

theorem save (h : Anchored sha d) (hs : Saves sha d j) (mark) :
    Anchored sha { d with journal := j, mark := mark } := by
  cases hs with
  | fence q status _ _ _ _ => exact ⟨h.settled, h.old, h.live, h.ready⟩
  | start q op _ _ _ _ free accepted old =>
    have hlive : sha d.live = d.journal.installed.sha256 := h.settled fun o ho => .inr (free o ho)
    exact of_settled rfl (.inl (by rw [accepted]; rfl)) hlive fun _ => old.symm
  | advance op op' holds _ same advances => exact h.advance holds same advances mark
  | finish op op' holds _ same ends => exact h.finish holds same ends mark
  | succeed op op' launch _ _ _ _ _ _ _ live after =>
    refine of_settled rfl (.inr (by rw [after]; decide)) live fun hpre => ?_
    rw [after] at hpre
    cases hpre
  | manual op op' holds _ _ same installed before after =>
    have hlive : sha d.live = op'.old.sha256 ∨
        sha d.live = op'.candidate.sha256 ∧
          ({ d with journal := d.journal.settled op', mark := mark } : Disk).Backup sha op' := by
      rcases before with before | before
      · refine .inl ?_
        rw [same.old, ← installed]
        exact h.settled fun o ho => by rw [holds] at ho; cases ho; exact .inr (by rw [before]; decide)
      · exact h.live_same holds (by rw [before]; rfl) same.toSame same.candidate
    refine of_holds rfl (by rw [after]; rfl) (installed.trans same.old.symm) hlive fun hp => ?_
    rw [after] at hp
    cases hp

theorem step (h : Anchored sha d) (hm : Moves sha d d') : Anchored sha d' := by
  cases hm with
  | quiet journal status live taken copies =>
    refine ⟨?_, ?_, fun op hop hholds => ?_, ?_⟩ <;> rw [journal] at *
    · rw [live]
      exact h.settled
    · exact h.old
    · rw [live]
      exact (h.live op hop hholds).imp_right fun hl => ⟨hl.1, hl.2.congr ⟨rfl, rfl, rfl⟩ (copies op hop hholds)⟩
    · rw [live]
      exact h.ready
  | take q _ heq =>
    subst heq
    exact h.take
  | save j saves mark heq =>
    subst heq
    exact h.save saves mark
  | publish s _ mark heq =>
    subst heq
    exact ⟨h.settled, h.old, h.live, h.ready⟩
  | install op q holds _ _ _ stopping backup content journal _ _ copy =>
    have hholds : op.status.phase.holds = true := by rw [stopping]; rfl
    rw [← journal] at holds
    refine of_holds holds hholds ?_ (.inr ⟨content, backup.congr ⟨rfl, rfl, rfl⟩ copy⟩) fun hp => ?_
    · rw [journal] at holds ⊢
      exact h.old op holds (.inr hholds)
    · rw [stopping] at hp
      cases hp
  | restore op holds committed content journal _ _ _ =>
    have hholds := Phase.holds_of_committed committed
    rw [← journal] at holds
    refine of_holds holds hholds ?_ (.inl content) fun _ => content
    rw [journal] at holds ⊢
    exact h.old op holds (.inr hholds)

end Anchored

/-! ### Every run -/

/-- The rest of the execution that holds the lock makes only moves. -/
structure Host.Sound (sha : Bytes → Text) (h : Host) : Prop where
  anchored : Anchored sha h.disk
  helper : ∀ p, h.helper = some p → p.Safe (effect sha) (Moves sha) (fun _ _ => True) h.disk

inductive Host.Steps (sha : Bytes → Text) (h : Host) : Event → Disk → Prop
  | stay (e : Event) : Steps sha h e h.disk
  | begin (x : Execution) : Steps sha h (.start x) { h.disk with taken := none, proved := [], mark := .none }
  | move (x : Outcome) (c : Cmd)
      (next : Except Error (Ans c) → Program Cmd (fun c => Except Error (Ans c)) (Except Error Unit × Unit))
      (asks : h.helper = some (.ask c next)) (moves : Moves sha h.disk (perform sha x c h.disk).2) :
      Steps sha h (.answer x) (perform sha x c h.disk).2

namespace Host

variable {h : Host}

/-- An event keeps the host sound, and what it does to the disk is a start or one move. -/
theorem Sound.step (hs : h.Sound sha) (e) : (h.step sha e).Sound sha ∧ h.Steps sha e (h.step sha e).disk := by
  cases e with
  | start x =>
    simp only [Host.step]
    split
    · exact ⟨hs, .stay _⟩
    · refine ⟨⟨⟨hs.anchored.settled, hs.anchored.old, hs.anchored.live, hs.anchored.ready⟩, fun p hp => ?_⟩, .begin x⟩
      cases hp
      exact (x.program_spec ⟨hs.anchored.settled, hs.anchored.old, hs.anchored.live, hs.anchored.ready⟩ rfl)
  | answer x =>
    simp only [Host.step]
    split
    · rename_i c next hask
      obtain ⟨hmove, hnext⟩ := hs.helper _ hask _ .refl _ _ ⟨x, rfl⟩
      refine ⟨⟨hs.anchored.step hmove, fun p hp => ?_⟩, .move x c next hask hmove⟩
      cases hp
      exact hnext
    · exact ⟨hs, .stay _⟩
  | crash => exact ⟨⟨hs.anchored, nofun⟩, .stay _⟩

theorem Sound.run (hs : h.Sound sha) (events) : (h.run sha events).Sound sha := by
  induction events generalizing h with
  | nil => exact hs
  | cons e rest ih => exact ih (hs.step e).1

theorem run_concat (h : Host) (events e) : h.run sha (events ++ [e]) = (h.run sha events).step sha e := by
  simp [Host.run]

end Host

/-- The journal answers for the live program, and an operation that has begun replaces what is installed. -/
structure Disk.Starts (sha : Bytes → Text) (d : Disk) : Prop where
  live : sha d.live = d.journal.installed.sha256
  old : ∀ op, d.journal.operation = some op →
    op.status.phase.terminal = true ∧ op.status.phase ≠ .manualRequired ∨ d.journal.installed = op.old

theorem Disk.Starts.sound (h : d.Starts sha) : (⟨d, none⟩ : Host).Sound sha := by
  refine ⟨?_, nofun⟩
  cases hop : d.journal.operation with
  | none =>
    refine ⟨fun _ => h.live, fun o ho => ?_, fun o ho => ?_, fun o ho => ?_⟩
    all_goals
      change d.journal.operation = some o at ho
      rw [hop] at ho
      cases ho
  | some op =>
    by_cases hphase : op.status.phase.Settled
    · refine Anchored.of_settled hop hphase h.live fun hpre => ?_
      refine (h.old op hop).resolve_left fun hended => ?_
      rw [Phase.not_terminal_of_precommit hpre] at hended
      cases hended.1
    · have hold : d.journal.installed = op.old := (h.old op hop).resolve_left fun hended => hphase (.inr hended)
      exact Anchored.of_holds hop (Phase.holds_iff.mpr hphase) hold (.inl (hold ▸ h.live)) fun _ => hold ▸ h.live

/-- How the installed identity may change: it becomes the candidate in the write that records the
success, after the candidate's launch proved ready. -/
structure Installs (d d' : Disk) : Prop where
  operation : ∃ op op' launch, d.journal.operation = some op ∧ d'.journal.operation = some op' ∧ op.Alike op' ∧
    op.status.phase = .validating ∧ op'.status.phase = .succeeded ∧ op.pendingLaunch = some launch ∧
    launch.identity = op.candidate ∧ launch ∈ d.proved ∧ d'.journal.installed = op.candidate

theorem Saves.installs {j : Journal} (h : Saves sha d j) (mark) (hne : j.installed ≠ d.journal.installed) :
    Installs d { d with journal := j, mark := mark } := by
  cases h with
  | succeed op op' launch holds _ same before pending isCandidate proved _ after =>
    exact ⟨op, op', launch, holds, rfl, same, before, after, pending, isCandidate, proved, rfl⟩
  | _ => exact absurd rfl hne

theorem Moves.installs (h : Moves sha d d') (hne : d'.journal.installed ≠ d.journal.installed) : Installs d d' := by
  cases h with
  | save j saves mark heq =>
    subst heq
    exact saves.installs mark hne
  | take q _ heq =>
    subst heq
    exact absurd rfl hne
  | publish s _ mark heq =>
    subst heq
    exact absurd rfl hne
  | quiet journal => exact absurd (by rw [journal]) hne
  | install op q _ _ _ _ _ _ _ journal => exact absurd (by rw [journal]) hne
  | restore op _ _ _ journal => exact absurd (by rw [journal]) hne

/-- After every sequence of executions, failures and crashes the live program is the one that the
journal answers for, and the installed identity changes only with a success that was proved. -/
theorem updater_crash_safe (sha : Bytes → Text) (d0 : Disk) (hstart : d0.Starts sha) (events : List Event) :
    let d := ((⟨d0, none⟩ : Host).run sha events).disk
    ((∀ op, d.journal.operation = some op → op.status.phase.precommit = true ∨
        op.status.phase.terminal = true ∧ op.status.phase ≠ .manualRequired) →
      sha d.live = d.journal.installed.sha256) ∧
    (∀ op, d.journal.operation = some op → op.status.phase.precommit = false →
      op.status.phase.terminal = false ∨ op.status.phase = .manualRequired →
      d.journal.installed = op.old ∧ (sha d.live = op.old.sha256 ∨ sha d.live = op.candidate.sha256) ∧
        (sha d.live ≠ op.old.sha256 → d.Backup sha op)) ∧
    ∀ e d', d' = ((⟨d0, none⟩ : Host).run sha (events ++ [e])).disk →
      d'.journal.installed ≠ d.journal.installed → Installs d d' := by
  intro d
  have hs : ((⟨d0, none⟩ : Host).run sha events).Sound sha := hstart.sound.run events
  refine ⟨hs.anchored.settled, fun op hop hpre hphase => ?_, fun e d' hd' hne => ?_⟩
  · have hholds : op.status.phase.holds = true := by
      refine Phase.holds_iff.mpr fun h => ?_
      rcases h with h | ⟨hterminal, hmanual⟩
      · rw [hpre] at h
        cases h
      · rcases hphase with h | h
        · rw [hterminal] at h
          cases h
        · exact hmanual h
    have hlive := hs.anchored.live op hop hholds
    exact ⟨hs.anchored.old op hop (.inr hholds), hlive.imp_right (·.1), fun hne => (hlive.resolve_left hne).2⟩
  · have hsteps := (hs.step e).2
    rw [Host.run_concat] at hd'
    rw [← hd'] at hsteps
    cases hsteps with
    | stay => exact absurd rfl hne
    | begin => exact absurd rfl hne
    | move x c next _ moves => exact moves.installs hne

/-! ### An update from 1.0.0 to 1.1.0 -/

/-- SHA-256 on the two programs of the sample. -/
def sampleSha (content : Bytes) : Text :=
  if content = List.replicate 64 0 then ascii "f5a5fd42d16a20302798ef6ed309979b43003d2320d9f0e8ea9831a92759fb4b"
  else ascii "7c8975e1e60a5c8337f28edf8c33c3b180360b7279644a9bc1af3c51e6220bf5"

def sampleId (digit : UInt8) : Text := List.replicate 32 digit

def sampleBuild (version : String) (commit : UInt8) : BuildInfo where
  version := ascii version
  target := ascii "x86_64-unknown-linux-musl"
  sourceCommit := List.replicate 40 commit
  officialRelease := true
  updateProtocol := 1
  helperProtocol := HELPER_PROTOCOL
  installContract := INSTALL_CONTRACT
  durableContractEpoch := 1
  runtimeDatabaseFormat := 1
  cacheSnapshotFormat := 1
  cacheSemantics := 1

def sampleOld : InstalledIdentity := ⟨sampleBuild "1.0.0" 97, sampleSha (List.replicate 64 1)⟩
def sampleCandidate : InstalledIdentity := ⟨sampleBuild "1.1.0" 98, sampleSha (List.replicate 64 0)⟩

def sampleManifest : Manifest where
  schema := 1
  repository := REPOSITORY
  version := ascii "1.1.0"
  tag := ascii "v1.1.0"
  sourceCommit := List.replicate 40 98
  updateProtocol := 1
  installContract := INSTALL_CONTRACT
  minHelperProtocol := 4
  durableContractEpoch := 1
  runtimeDatabaseFormat := 1
  cacheSnapshotFormat := 1
  cacheSemantics := 1
  upgradeMode := .inPlace
  artifacts := [
    ⟨ascii "x86_64-unknown-linux-musl", ascii "parins-v1.1.0-linux-x86_64.bin", 64, sampleCandidate.sha256⟩,
    ⟨ascii "aarch64-unknown-linux-musl", ascii "parins-v1.1.0-linux-aarch64.bin", 64, sampleCandidate.sha256⟩]

def sampleDownload : DownloadTuple :=
  ⟨1, ascii "v1.1.0", sampleOld.sha256, 2, ascii "parins-v1.1.0-linux-x86_64.bin", 64, sampleCandidate.sha256⟩

def sampleInbox (request : Request) : Inbox := ⟨1, sampleId 97, sampleId 98, request⟩

def sampleService : Service :=
  [(ascii "MainPID", ascii "0"), (ascii "Result", ascii "success"), (ascii "ExecMainCode", ascii "1"),
   (ascii "ExecMainStatus", ascii "0"), (ascii "InvocationID", sampleId 99), (ascii "ActiveState", ascii "active")]

def sampleDisk : Disk where
  journal := ⟨1, sampleOld, none, none, none⟩
  status := Journal.status ⟨1, sampleOld, none, none, none⟩ 0
  live := List.replicate 64 1
  staging := fun _ => none
  taken := none
  proved := []
  mark := .none

/-- Everything goes well with this request. -/
def sampleOutcome (request : Request) : Outcome where
  inbox := some (sampleInbox request)
  nonce := sampleId 100
  service := sampleService
  document := ⟨sampleManifest, sampleOld.sha256⟩
  bytes := List.replicate 64 0

/-- A launch of `identity` that is ready from the start. -/
def sampleTicks (identity : InstalledIdentity) : List Tick :=
  [0, 3000, 6000, 9000, 12000].map fun now => {
    start := now
    info := .ok [(ascii "MainPID", ascii "7"), (ascii "InvocationID", sampleId 101)]
    health := some ⟨sampleId 97, sampleId 100, identity, 1, 1, true, true, true, now, 7, sampleId 101⟩
    image := some identity.sha256
    now := now }

def stageEvents : List Event :=
  .start .run :: List.replicate 40 (.answer (sampleOutcome (.stage sampleDownload sampleOld.sha256 (sampleId 99) 1)))

def commitEvents (n : Nat) : List Event :=
  .start .run :: List.replicate n
    (.answer { sampleOutcome (.commit (sampleId 99) 1) with ticks := sampleTicks sampleCandidate })

theorem updater_crash_safe_sample :
    sampleDisk.Starts sampleSha ∧
    Installs ((⟨sampleDisk, none⟩ : Host).run sampleSha (stageEvents ++ commitEvents 38)).disk
      ((⟨sampleDisk, none⟩ : Host).run sampleSha (stageEvents ++ commitEvents 38 ++
        [.answer (sampleOutcome (.commit (sampleId 99) 1))])).disk := by
  have hstart : sampleDisk.Starts sampleSha := ⟨by decide +kernel, fun op hop => by cases hop⟩
  refine ⟨hstart, (updater_crash_safe sampleSha sampleDisk hstart _).2.2 _ _ rfl ?_⟩
  decide +kernel

end Parins.Update
