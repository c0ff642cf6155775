/-
What each request of the application makes the helper do, and one whole
execution: the rest of the specifications.
-/
import Parins.Update.Programs

namespace Parins.Update
open Lib
open Lib.Exec (memory modify ofExcept sustains_memory sustains_modify sustains_within sustains_ofExcept
  sustains_attempt)

variable {sha : Bytes → Text} {d d' : Disk} {q : Inbox} {op op0 : Operation} {m : Journal} {units : Except Error Unit}

/-! ### Which request is served -/

variable {id : Text}

theorem OperationStatus.isFor_iff {s : OperationStatus} {nonce} :
    s.isFor id nonce = true ↔ s.operationId = id ∧ s.phaseNonce = nonce := by
  simp [isFor]

variable {j : Journal}

/-- The fence lets a request through that the journal lacks, if the operation that it holds is another. -/
theorem terminalFence_lacks (h : terminalFence j q = .ok false)
    (hne : ∀ op, j.operation = some op → op.status.operationId ≠ q.operationId) : j.Lacks q.operationId := by
  refine ⟨hne, fun last hlast hid => ?_⟩
  have hfind : ((j.operation.map (·.status)).toList ++ j.lastOperation.toList).find?
      (fun status => status.operationId == q.operationId) = some last := by
    cases hop : j.operation with
    | none => simp [hlast, hid]
    | some op => simp [hlast, hid, hne op hop]
  unfold terminalFence at h
  simp only [hfind] at h
  unfold ensure at h
  split at h
  · exact Except.ok.inj h
  · cases h

theorem matching_ok (h : matching j q = .ok op) :
    j.operation = some op ∧ op.status.isFor q.operationId q.phaseNonce = true := by
  unfold matching at h
  split at h
  · cases h
  · rename_i op' hop
    unfold ensure at h
    split at h
    · rename_i hfor
      cases h
      exact ⟨hop, hfor⟩
    · cases h

theorem Disk.serves_of_isFor (ht : d.taken = some q) (h : op.status.isFor q.operationId q.phaseNonce = true) :
    d.Serves op := by
  intro q' hq'
  rw [ht] at hq'
  cases hq'
  obtain ⟨hid, hnonce⟩ := OperationStatus.isFor_iff.mp h
  exact ⟨hid.symm, hnonce.symm⟩

theorem storeLast_spec {phase : Phase} {version reason total} (ht : d.taken = some q)
    (hlacks : d.journal.Lacks q.operationId) (hphase : phase.terminal = true) :
    Makes sha (storeLast q phase version reason total) (fun _ _ _ => True) d.journal d := by
  refine makes_clock fun now => ?_
  refine sustains_modify ?_
  have hsave : Saves sha d { d.journal with lastOperation := some (fenceStatus q phase version reason total now) } :=
    .fence q _ ht hlacks (OperationStatus.isFor_iff.mpr ⟨rfl, rfl⟩) hphase
  exact (persist_spec hsave).safe

/-! ### Abort -/

theorem abortOwn_spec (ht : d.taken = some q) : Makes sha (abortOwn q) (fun _ _ _ => True) d.journal d := by
  refine sustains_memory ?_
  refine sustains_ofExcept (fun op hop => ?_) fun _ _ => trivial
  obtain ⟨hop, hfor⟩ := matching_ok hop
  have hfinish : Makes sha (doWhen op.status.phase.precommit (finish .aborted (some (ascii "aborted"))))
      (fun out m' d' => out = .ok () → d'.journal = m') d.journal d :=
    makes_doWhen (fun hpre => finish_early hop hpre (Disk.serves_of_isFor ht hfor) (.inr rfl)) fun _ _ => rfl
  refine hfinish.bind (fun _ m' d' h => ?_) fun _ _ _ _ => trivial
  have hj := h rfl
  subst hj
  exact publish_loaded

theorem abort_spec (ht : d.taken = some q) : Makes sha (abort q) (fun _ _ _ => True) d.journal d := by
  refine sustains_memory ?_
  refine sustains_ofExcept (fun fenced hfence => ?_) fun _ _ => trivial
  cases fenced with
  | true => exact publish_loaded
  | false =>
    simp only [Bool.false_eq_true, if_false]
    split
    · rename_i hall
      refine storeLast_spec ht (terminalFence_lacks hfence fun op hop => ?_) rfl
      simpa [hop] using hall
    · exact abortOwn_spec ht

/-! ### VerifyRecovery -/

theorem verifyRecovery_spec (h : Anchored sha d) (ht : d.taken = some q) :
    Makes sha (verifyRecovery q units) (fun _ _ _ => True) d.journal d := by
  refine sustains_memory ?_
  refine sustains_ofExcept (fun op hop => ?_) fun _ _ => trivial
  obtain ⟨hop, hfor⟩ := matching_ok hop
  refine makes_require (fun hphase => ?_) fun _ => trivial
  have hphase : op.status.phase = .awaitingReadiness := by simpa using hphase
  have hcommitted : op.status.phase.committed = true := by rw [hphase]; rfl
  have hgoing : Going op (some q) d.journal d :=
    .loaded hop hcommitted (h.old op hop (.inr (by simp [Phase.holds, hcommitted]))) (Disk.serves_of_isFor ht hfor) ht
  cases units with
  | error e =>
    exact (hgoing.finish (.inr rfl)).bind (fun _ _ _ _ => trivial) fun _ _ _ _ => trivial
  | ok _ =>
    refine sustains_attempt waitReady_spec fun out m' d' h' => ?_
    obtain ⟨rfl, hj, hl, htaken, _⟩ := h'
    have hgoing := hgoing.congr hj htaken
    cases out with
    | ok _ => exact (hgoing.finish (.inl ⟨rfl, hl ▸ h.ready op hop hphase⟩)).safe
    | error _ => exact (hgoing.finish (.inr rfl)).safe

/-! ### Stage -/

/-- The operation of both journals is `op0` before its commit; they differ in nothing else. -/
structure Preparing (op0 : Operation) (m : Journal) (d : Disk) : Prop where
  disk : ∃ od, d.journal.operation = some od ∧ op0.Same od ∧ od.status.phase.precommit = true
  memory : ∃ om, m = { d.journal with operation := some om } ∧ op0.Same om ∧ om.status.phase.precommit = true
  serves : d.Serves op0

variable {a b : Operation}

theorem Operation.Same.trans {c} (h1 : a.Same b) (h2 : b.Same c) : a.Same c :=
  ⟨h2.id.trans h1.id, h2.nonce.trans h1.nonce, h2.old.trans h1.old⟩

theorem Operation.Same.symm (h : a.Same b) : b.Same a := ⟨h.id.symm, h.nonce.symm, h.old.symm⟩

variable {p : Phase}

theorem Phase.not_holds_of_precommit (h : p.precommit = true) : p.holds = false := by
  cases p <;> first | rfl | cases h

theorem Phase.not_holds_of_ended (h : p.terminal = true) (hm : p ≠ .manualRequired) : p.holds = false := by
  cases p <;> first | rfl | exact absurd rfl hm | cases h

theorem Phase.not_terminal_of_precommit (h : p.precommit = true) : p.terminal = false := by
  cases p <;> first | rfl | cases h

variable {P : Text → FileName → Prop}

theorem Disk.spares_early (hop : d.journal.operation = some op)
    (hpre : op.status.phase.precommit = true) : d.Spares P := by
  intro op' hop' hholds
  cases hop.symm.trans hop'
  rw [Phase.not_holds_of_precommit hpre] at hholds
  cases hholds

namespace Preparing

variable (h : Preparing op0 m d)
include h

theorem spares (P) : d.Spares P := by
  obtain ⟨od, hod, _, hpre⟩ := h.disk
  exact Disk.spares_early hod hpre

theorem congr (hj : d'.journal = d.journal) (ht : d'.taken = d.taken) : Preparing op0 m d' := by
  obtain ⟨hd, hm, hs⟩ := h
  refine ⟨?_, ?_, fun q hq => hs q (ht ▸ hq)⟩
  · rw [hj]
    exact hd
  · rw [hj]
    exact hm

theorem touched (ht : Touches P d d') : Preparing op0 m d' :=
  h.congr ht.journal ht.taken

theorem modify {f} (hf : ∀ op : Operation, op.Same (f op))
    (hp : ∀ op, m.operation = some op → op.status.phase.precommit = true → (f op).status.phase.precommit = true) :
    Preparing op0 (m.setOperation f) d := by
  obtain ⟨hd, ⟨om, rfl, hom, hpre⟩, hs⟩ := h
  exact ⟨hd, ⟨f om, rfl, hom.trans (hf om), hp om rfl hpre⟩, hs⟩

theorem persist : Makes sha persist (fun _ m' d' => Preparing op0 m' d') m d := by
  obtain ⟨⟨od, hod, hsame, hpre⟩, ⟨om, rfl, hom, hpre'⟩, hserves⟩ := h
  have hsave : Saves sha d { d.journal with operation := some om } :=
    .advance od om hod (hserves.congr hsame rfl) (hsame.symm.trans hom) (.prepare hpre hpre')
  refine (persist_spec hsave).mono fun out m' d' hp => ?_
  have hj := hp.journal_cases
  obtain ⟨rfl, hkept, _⟩ := hp
  have hserves' : d'.Serves op0 := fun q hq => hserves q (hkept.taken ▸ hq)
  rcases hj with hj | hj
  · exact ⟨⟨od, by rw [hj]; exact hod, hsame, hpre⟩, ⟨om, by rw [hj], hom, hpre'⟩, hserves'⟩
  · exact ⟨⟨om, by rw [hj], hom, hpre'⟩, ⟨om, by rw [hj], hom, hpre'⟩, hserves'⟩

theorem phase (hp : p.precommit = true) :
    Makes sha (Update.phase p) (fun _ m' d' => Preparing op0 m' d') m d := by
  obtain ⟨om, hm, _⟩ := h.memory
  have hop : m.operation = some om := by rw [hm]
  refine makes_theOperation hop ?_
  refine makes_clock fun now => ?_
  have h : Preparing op0 (m.setOperation (·.enter p now)) d := h.modify (fun _ => ⟨rfl, rfl, rfl⟩) fun _ _ _ => hp
  exact sustains_modify h.persist

theorem publishQuietly :
    Makes sha publishQuietly (fun out m' d' => out = .ok () ∧ m' = m ∧ Preparing op0 m d') m d := by
  obtain ⟨om, hm, _, hpre⟩ := h.memory
  have htells : ∀ now, d.journal.Tells (m.status now) := fun now =>
    hm ▸ Journal.tells_going (Phase.not_terminal_of_precommit hpre) now
  refine sustains_attempt (publish_spec htells) fun out m' d' hp => ?_
  obtain ⟨rfl, hkept, hj, _⟩ := hp
  exact ⟨rfl, rfl, h.congr hj hkept.taken⟩

theorem reportProgress (sizes) :
    Makes sha (reportProgress sizes) (fun _ m' d' => Preparing op0 m' d') m d := by
  induction sizes generalizing m d with
  | nil => exact h
  | cons entry rest ih =>
    obtain ⟨size, due⟩ := entry
    refine sustains_modify ?_
    have h : Preparing op0 (m.setOperation fun op =>
        { op with status := { op.status with downloadedBytes := size } }) d :=
      h.modify (fun _ => ⟨rfl, rfl, rfl⟩) fun _ _ hpre => hpre
    have hquiet : Makes sha (doWhen due Update.publishQuietly) (fun out m' d' => out = .ok () ∧ Preparing op0 m' d') _ d :=
      makes_doWhen (fun _ => h.publishQuietly.mono fun _ _ _ hp => ⟨hp.1, hp.2.1 ▸ hp.2.2⟩) fun _ => ⟨rfl, h⟩
    exact hquiet.bind (fun _ _ _ hp => ih hp.2) fun _ _ _ hp => by cases hp.1

theorem touch {c} {f : Ans c → Helper β} {Q : Except Error β → Journal → Disk → Prop}
    (htouch : ∀ x, Touches (fun _ _ => True) d (perform sha x c d).2)
    (hok : ∀ a d', Preparing op0 m d' → Makes sha (f a) Q m d') (herr : ∀ e d', Preparing op0 m d' → Q (.error e) m d') :
    Makes sha (call c >>= f) Q m d :=
  makes_touch htouch (h.spares _) (fun a _ _ _ ht => hok a _ (h.touched ht)) fun e _ ht => herr e _ (h.touched ht)

theorem fetchCandidate {request : StageRequest} :
    Makes sha (fetchCandidate request) (fun _ m' d' => Preparing op0 m' d') m d := by
  refine makes_look rfl (fun document _ _ => ?_) fun _ => h
  refine sustains_memory ?_
  refine sustains_ofExcept (fun candidate _ => ?_) fun _ _ => h
  refine sustains_modify ?_
  have h : Preparing op0 (m.setOperation fun op => { op with candidate := candidate }) d :=
    h.modify (fun _ => ⟨rfl, rfl, rfl⟩) fun _ _ hpre => hpre
  refine makes_look rfl (fun _ _ _ => ?_) fun _ => h
  refine h.touch touches_createDir (fun _ d1 h => ?_) fun _ _ h => h
  refine (h.phase rfl).bind (fun _ m2 d2 h => ?_) fun _ _ _ h => h
  refine h.touch (touches_createFile trivial) (fun _ d3 h => ?_) fun _ _ h => h
  refine makes_read rfl (fun x => ⟨x.progress, rfl⟩) fun sizes => ?_
  refine (h.reportProgress sizes).bind (fun _ m4 d4 h => ?_) fun _ _ _ h => h
  refine h.touch (touches_download trivial) (fun _ d5 h => ?_) fun _ _ h => h
  refine makes_look rfl (fun _ _ _ => ?_) fun _ => h
  refine makes_look rfl (fun _ _ _ => ?_) fun _ => h
  refine h.touch (touches_promote trivial trivial) (fun _ d6 h => ?_) fun _ _ h => h
  exact h.phase rfl

theorem finish {reason} (hp : p = .failed ∨ p = .aborted) :
    Makes sha (Update.finish p reason) (fun _ _ _ => True) m d := by
  refine makes_clock fun now => ?_
  refine sustains_modify ?_
  obtain ⟨⟨od, hod, hsame, hpre⟩, ⟨om, rfl, hom, _⟩, hserves⟩ := h
  have hsave : Saves sha d ({ d.journal with operation := some om }.finish p reason now) :=
    .finish od _ hod (hserves.congr hsame rfl) ((hsame.symm.trans hom).trans ⟨rfl, rfl, rfl⟩) (.early hpre hp)
  exact (persist_spec hsave).safe

end Preparing

def Journal.Free (j : Journal) : Prop :=
  ∀ op, j.operation = some op → op.status.phase.terminal = true ∧ op.status.phase ≠ .manualRequired

theorem Journal.Free.spares (h : d.journal.Free) (P) : d.Spares P := by
  intro op hop hholds
  rw [Phase.not_holds_of_ended (h op hop).1 (h op hop).2] at hholds
  cases hholds

variable {now : Nat}

theorem stageRefusal_none (h : stageRefusal j now = none) : j.Free := by
  intro op hop
  unfold stageRefusal at h
  rw [hop] at h
  split at h
  · cases h
  · simp only at h
    split at h
    · cases h
    · rename_i hterminal
      split at h
      · cases h
      · rename_i hmanual
        exact ⟨by simpa using hterminal, hmanual⟩

section Stage
variable {request : StageRequest} {now : Nat}

/-- A Stage that the gate lets through is of an operation that the journal lacks, and no other goes on. -/
theorem stageUnknown_spec (ht : d.taken = some request.inbox)
    (hne : ∀ op, d.journal.operation = some op → op.status.operationId ≠ request.inbox.operationId) :
    Makes sha (stageUnknown request now) (fun out m' d' => out = .ok true → m' = d.journal ∧ d' = d ∧
      d.journal.Lacks request.inbox.operationId ∧ d.journal.Free) d.journal d := by
  refine sustains_memory ?_
  refine sustains_ofExcept (fun fenced hfence => ?_) nofun
  cases fenced with
  | true => exact publish_loaded.bind (fun _ _ _ _ h => by cases h) fun _ _ _ _ h => by cases h
  | false =>
    have hlacks := terminalFence_lacks hfence hne
    simp only [Bool.false_eq_true, if_false]
    split
    · exact (storeLast_spec ht hlacks rfl).bind (fun _ _ _ _ h => by cases h) fun _ _ _ _ h => by cases h
    · rename_i hrefusal
      exact fun _ => ⟨rfl, rfl, hlacks, stageRefusal_none hrefusal⟩

theorem stageGate_spec (ht : d.taken = some request.inbox) :
    Makes sha (stageGate request now) (fun out m' d' => out = .ok true → m' = d.journal ∧ d' = d ∧
      d.journal.Lacks request.inbox.operationId ∧ d.journal.Free) d.journal d := by
  refine makes_require (fun _ => ?_) nofun
  refine sustains_memory ?_
  split
  · refine makes_require (fun _ => ?_) nofun
    exact publish_loaded.bind (fun _ _ _ _ h => by cases h) fun _ _ _ _ h => by cases h
  · rename_i hnone
    refine stageUnknown_spec ht fun op hop => ?_
    simpa [hop] using hnone

/-- The journal and the request stay as they were. -/
structure Settled (d : Disk) (m' : Journal) (d' : Disk) : Prop where
  memory : m' = d.journal
  journal : d'.journal = d.journal
  taken : d'.taken = d.taken

theorem Journal.Free.touch {c} {d0 : Disk} {f : Ans c → Helper Unit} (hfree : d0.journal.Free)
    (htouch : ∀ d x, Touches (fun _ _ => True) d (perform sha x c d).2) (h : Touches (fun _ _ => True) d0 d)
    (hok : ∀ a d', Touches (fun _ _ => True) d0 d' → Makes sha (f a) (fun _ m' d' => Settled d0 m' d') d0.journal d') :
    Makes sha (call c >>= f) (fun _ m' d' => Settled d0 m' d') d0.journal d := by
  refine makes_touch (htouch d) (h.spares (hfree.spares _)) (fun a _ d' _ ht => hok a d' (h.trans ht)) fun _ d' ht => ?_
  exact ⟨rfl, (h.trans ht).journal, (h.trans ht).taken⟩

theorem clearStaging_spec (h : d.journal.Free) :
    Makes sha (clearStaging id) (fun _ m' d' => Settled d m' d') d.journal d := by
  refine makes_attempt_look rfl fun r _ _ => ?_
  cases r with
  | error _ => exact ⟨rfl, rfl, rfl⟩
  | ok _ =>
    refine h.touch (fun _ => touches_removeFile trivial) (.refl d) fun _ d1 h1 => ?_
    refine h.touch (fun _ => touches_removeFile trivial) h1 fun _ d2 h2 => ?_
    refine h.touch (fun _ => touches_removeFile trivial) h2 fun _ d3 h3 => ?_
    refine h.touch (fun _ => touches_removeFile trivial) h3 fun _ d4 h4 => ?_
    refine Program.safe_ask ?_
    rintro r d' ⟨x, hx⟩
    have ht : Touches (fun _ _ => True) d4 (perform sha x (.removeDir id) d4).2 := touches_removeDir x
    rw [hx] at ht
    exact ⟨ht.moves (h4.spares (h.spares _)), rfl, (h4.trans ht).journal, (h4.trans ht).taken⟩

theorem admitted_spec (h : d.journal.Free) :
    Makes sha (admitted request units) (fun _ m' d' => Settled d m' d') d.journal d := by
  have hsame : Settled d d.journal d := ⟨rfl, rfl, rfl⟩
  refine sustains_ofExcept (fun _ _ => ?_) fun _ _ => hsame
  refine sustains_memory ?_
  split
  · exact hsame
  · refine makes_hash ?_ fun _ => hsame
    split
    · exact hsame
    · refine makes_look rfl (fun _ _ _ => ?_) fun _ => hsame
      split
      · exact hsame
      · split
        · exact hsame
        · exact (clearStaging_spec h).bind (fun _ _ _ h => h) fun _ _ _ h => h

theorem runStage_spec (ht : d.taken = some request.inbox) (hstage : request.inbox.request.isStage = true)
    (hlacks : d.journal.Lacks request.inbox.operationId) (hfree : d.journal.Free) :
    Makes sha (runStage request) (fun _ _ _ => True) d.journal d := by
  refine makes_clock fun now => ?_
  let op0 := stagedOperation d.journal request now
  have hsave : Saves sha d { d.journal with
      operation := some op0, lastOperation := d.journal.operation.map (·.status) } :=
    .start request.inbox op0 ht hstage hlacks (OperationStatus.isFor_iff.mpr ⟨rfl, rfl⟩) hfree rfl rfl
  have hbegin : Makes sha (beginStage request now)
      (fun out m' d' => out = .ok () → Preparing op0 m' d') d.journal d := by
    refine sustains_modify ((persist_spec hsave).mono fun out m' d' hp hok => ?_)
    have hj := hp.journal_of_ok hok
    obtain ⟨rfl, hkept, _⟩ := hp
    refine ⟨⟨op0, by rw [hj], ⟨rfl, rfl, rfl⟩, rfl⟩, ⟨op0, by rw [hj], ⟨rfl, rfl, rfl⟩, rfl⟩, ?_⟩
    exact Disk.serves_of_isFor (hkept.taken.trans ht) (OperationStatus.isFor_iff.mpr ⟨rfl, rfl⟩)
  refine hbegin.bind (fun _ m' d' h => ?_) fun _ _ _ _ => trivial
  refine sustains_attempt (h rfl).fetchCandidate fun out m' d' h => ?_
  cases out with
  | ok _ => trivial
  | error e => exact (h.finish (.inl rfl)).bind (fun _ _ _ _ => trivial) fun _ _ _ _ => trivial

theorem stage_spec (ht : d.taken = some request.inbox) (hstage : request.inbox.request.isStage = true) :
    Makes sha (stage request units) (fun _ _ _ => True) d.journal d := by
  refine makes_clock fun now => ?_
  refine (stageGate_spec ht).bind (fun through m1 d1 h1 => ?_) fun _ _ _ _ => trivial
  cases through with
  | false => trivial
  | true =>
    obtain ⟨rfl, rfl, hlacks, hfree⟩ := h1 rfl
    refine sustains_attempt (admitted_spec hfree) fun out m2 d2 h2 => ?_
    obtain ⟨rfl, hj, htaken⟩ := h2
    rw [← hj] at hlacks hfree ⊢
    have ht := htaken.trans ht
    match out with
    | .ok none => exact runStage_spec ht hstage hlacks hfree
    | .ok (some reason) => exact storeLast_spec ht hlacks rfl
    | .error e => exact (storeLast_spec ht hlacks rfl).bind (fun _ _ _ _ => trivial) fun _ _ _ _ => trivial

end Stage

/-! ### Commit -/

/-- What a commit has made sure of before its first durable step. -/
structure Verified (sha : Bytes → Text) (op : Operation) (d : Disk) : Prop where
  live : sha d.live = op.old.sha256
  backup : d.Backup sha op
  candidate : ∃ content, d.file op.status.operationId .candidate = some content ∧ sha content = op.candidate.sha256

theorem Verified.kept (h : Verified sha op d) (hkept : Kept d d') : Verified sha op d' := by
  have hfile : ∀ id name, d'.file id name = d.file id name := by
    intro id name
    unfold Disk.file
    rw [hkept.staging]
  obtain ⟨hlive, ⟨copy, hcopy, hsha⟩, content, hcontent, hcandidate⟩ := h
  exact ⟨hkept.live ▸ hlive, ⟨copy, (hfile _ _).trans hcopy, hsha⟩, content, (hfile _ _).trans hcontent, hcandidate⟩

theorem require_spec {cond text} :
    Makes sha (require cond text) (fun out m' d' => m' = m ∧ d' = d ∧ (out = .ok () → cond = true)) m d := by
  cases cond with
  | true => exact ⟨rfl, rfl, fun _ => rfl⟩
  | false => exact ⟨rfl, rfl, nofun⟩

section Commit

/-- Only a backup may have been written. -/
abbrev Copies : Disk → Disk → Prop := Touches fun _ name => name = .previous

theorem copyLiveToBackup_spec (hop : d.journal.operation = some op) (hpre : op.status.phase.precommit = true) :
    Makes sha copyLiveToBackup (fun out m' d' => m' = d.journal ∧ Copies d d' ∧ (out = .ok () → d'.Backup sha op))
      d.journal d := by
  have hend : ∀ d' (e : Error), Copies d d' → d.journal = d.journal ∧ Copies d d' ∧
      ((Except.error e : Except Error Unit) = .ok () → d'.Backup sha op) := fun _ _ h => ⟨rfl, h, nofun⟩
  refine candidateDir_spec hop (fun _ => ?_) fun e => hend d e (.refl d)
  refine makes_theOperation hop ?_
  refine makes_hash ?_ fun e => hend d e (.refl d)
  refine makes_require (fun _ => ?_) fun e => hend d e (.refl d)
  refine makes_look rfl (fun _ _ _ => ?_) fun e => hend d e (.refl d)
  refine makes_touch (touches_createFile rfl) (Disk.spares_early hop hpre) (fun _ _ d1 _ h1 => ?_) fun e _ ht =>
    hend _ e ht
  refine makes_touch (touches_copyLive rfl) (h1.spares (Disk.spares_early hop hpre)) (fun _ _ d2 _ h2 => ?_)
    fun e _ ht => hend _ e (h1.trans ht)
  have h2 : Copies d d2 := h1.trans h2
  refine makes_hashFile (fun content hcontent => ?_) fun e => hend d2 e h2
  refine require_spec.mono fun out m' d' h => ?_
  obtain ⟨rfl, rfl, hsha⟩ := h
  exact ⟨rfl, h2, fun hok => ⟨content, hcontent, by simpa using hsha hok⟩⟩

theorem verifyCommit_spec (hop : d.journal.operation = some op) (hpre : op.status.phase.precommit = true) :
    Makes sha verifyCommit (fun out m' d' => m' = d.journal ∧ Copies d d' ∧
      ∀ dir, out = .ok dir → dir = op.status.operationId ∧ Verified sha op d') d.journal d := by
  have hend : ∀ e : Error, d.journal = d.journal ∧ Copies d d ∧
      ∀ dir, (Except.error e : Except Error Text) = .ok dir → dir = op.status.operationId ∧ Verified sha op d :=
    fun _ => ⟨rfl, .refl d, nofun⟩
  refine makes_theOperation hop ?_
  refine makes_hash ?_ hend
  refine makes_require (fun hlive => ?_) hend
  refine candidateDir_spec hop (fun _ => ?_) hend
  refine makes_hashFile (fun content hcontent => ?_) hend
  refine makes_require (fun hsha => ?_) hend
  refine (copyLiveToBackup_spec hop hpre).bind (fun _ m' d' h => ?_) fun e m' d' h => ⟨h.1, h.2.1, nofun⟩
  obtain ⟨rfl, hcopies, hbackup⟩ := h
  refine ⟨rfl, hcopies, fun dir hdir => ?_⟩
  cases hdir
  refine ⟨rfl, ?_, hbackup rfl, content, ?_, by simpa using hsha⟩
  · rw [hcopies.live]
    simpa using hlive
  · rw [hcopies.files _ _ fun h => by cases h]
    exact hcontent

theorem enterCommit_spec (hop : d.journal.operation = some op) (hstaged : op.status.phase = .staged)
    (hinstalled : d.journal.installed = op.old) (hserves : d.Serves op) (ht : d.taken = some q)
    (hcommits : q.request.isCommit = true) :
    Makes sha (phase .committing) (fun out m' d' => out = .ok () → Going op (some q) m' d' ∧ Kept d d') d.journal d := by
  refine makes_theOperation hop ?_
  refine makes_clock fun now => ?_
  refine sustains_modify ?_
  let op' := op.enter .committing now
  have hm : d.journal.setOperation (·.enter .committing now) = { d.journal with operation := some op' } := by
    simp [Journal.setOperation, hop, op']
  rw [hm]
  have hsave : Saves sha d { d.journal with operation := some op' } :=
    .advance op op' hop hserves ⟨rfl, rfl, rfl⟩ (.commit q ht hcommits hstaged rfl rfl)
  refine (persist_spec hsave).mono fun out m' d' hp hok => ?_
  have hj := hp.journal_of_ok hok
  obtain ⟨rfl, hkept, _⟩ := hp
  refine ⟨⟨⟨op', by rw [hj], ⟨⟨rfl, rfl, rfl⟩, rfl⟩, rfl⟩, ⟨op', by rw [hj], ⟨⟨rfl, rfl, rfl⟩, rfl⟩⟩, ?_,
    fun q hq => hserves q (hkept.taken ▸ hq), hkept.taken.trans ht⟩, hkept⟩
  rw [hj]
  exact hinstalled

theorem stopClean_spec : Makes sha stopClean (fun _ m' d' => m' = m ∧ d' = d) m d := by
  refine makes_look rfl (fun _ _ _ => ?_) fun _ => ⟨rfl, rfl⟩
  refine makes_look rfl (fun _ _ _ => ?_) fun _ => ⟨rfl, rfl⟩
  exact require_spec.mono fun _ _ _ h => ⟨h.1, h.2.1⟩

theorem install_spec {f} {Q : Except Error Unit → Journal → Disk → Prop}
    (h : Going op0 (some q) m d) (hcommits : q.request.isCommit = true) (hop : d.journal.operation = some op)
    (hphase : op.status.phase = .stopping) (hverified : Verified sha op0 d)
    (hok : ∀ d', d'.journal = d.journal → Going op0 (some q) m d' → sha d'.live = op0.candidate.sha256 →
      Makes sha (f ()) Q m d')
    (herr : ∀ e d', Going op0 (some q) m d' → Q (.error e) m d') :
    Makes sha (call (.install op0.status.operationId .candidate) >>= f) Q m d := by
  obtain ⟨od, hod, halike, _⟩ := h.disk
  rw [hop] at hod
  cases hod
  obtain ⟨_, ⟨copy, hcopy, hold⟩, content, hcontent, hsha⟩ := hverified
  refine Program.safe_ask ?_
  rintro r d' ⟨x, hx⟩
  rw [perform_install x hcontent] at hx
  let d1 : Disk := { d.putFile op0.status.operationId .candidate none with live := content }
  have hmove : Moves sha d d1 := by
    refine .install op q hop (h.serves.congr halike.toSame rfl) h.taken hcommits hphase ?_ ?_ rfl rfl rfl
      (Disk.file_putFile_of_ne (by decide))
    · exact ⟨copy, by rw [halike.id]; exact hcopy, by rw [halike.old]; exact hold⟩
    · rw [halike.candidate]
      exact hsha
  have hgoing : Going op0 (some q) m d1 := h.congr rfl rfl
  unfold Outcome.settle at hx
  split at hx <;> cases hx
  · exact ⟨hmove, hok d1 rfl hgoing hsha⟩
  · exact ⟨.refl _, herr _ _ h⟩
  · exact ⟨hmove, herr _ _ hgoing⟩

theorem succeed_spec {launch : PendingLaunch} (h : Going op0 (some q) m d) (hj : d.journal = m)
    (hop : m.operation = some op) (hphase : op.status.phase = .validating) (hpending : op.pendingLaunch = some launch)
    (hidentity : launch.identity = op.candidate) (hproved : launch ∈ d.proved)
    (hlive : sha d.live = op0.candidate.sha256) :
    Makes sha (do
      let journal ← ofExcept (m.commit now)
      modify fun _ => journal
      persist) (fun _ m' _ => m'.operation.any (!·.status.phase.terminal) = false) m d := by
  have hcommit : m.commit now = .ok ({ m with installed := op.candidate }.finish .succeeded none now) := by
    unfold Journal.commit
    rw [hop]
    exact if_pos hphase
  rw [hcommit]
  obtain ⟨om, hom, halike⟩ := h.operation
  rw [hop] at hom
  cases hom
  let op' : Operation := { op with
    status := { op.status with phase := .succeeded, reason := none, updatedAtMs := now }, pendingLaunch := none }
  have hsettled : { m with installed := op.candidate }.finish .succeeded none now =
      { d.journal with installed := op.candidate }.settled op' := by
    unfold Journal.finish
    rw [hop, hj]
    rfl
  rw [hsettled]
  have hsave : Saves sha d ({ d.journal with installed := op.candidate }.settled op') :=
    .succeed op op' launch (hj ▸ hop) (h.serves.congr halike.toSame rfl) ⟨⟨rfl, rfl, rfl⟩, rfl⟩ hphase hpending hidentity
      hproved (by rw [halike.candidate]; exact hlive) rfl
  refine sustains_ofExcept (fun journal hjournal => ?_) nofun
  cases hjournal
  refine sustains_modify ((persist_spec hsave).mono fun _ m' _ hp => ?_)
  rw [hp.memory]
  rfl

theorem installCandidate_spec (h : Going op0 (some q) m d) (hcommits : q.request.isCommit = true) (hj : d.journal = m)
    (hop : m.operation = some op) (hphase : op.status.phase = .stopping) (hverified : Verified sha op0 d) :
    Makes sha (installCandidate op0.status.operationId) (fun out m' d' => ∀ e, out = .error e →
      m'.operation.any (!·.status.phase.terminal) = true → Going op0 (some q) m' d') m d := by
  refine install_spec h hcommits (hj ▸ hop) hphase hverified (fun d1 _ h1 hlive1 => ?_) fun _ _ h _ _ _ => h
  refine (h1.launch hop rfl fun h => by cases h).bind (fun _ m2 d2 h2 => ?_) fun _ _ _ h _ _ _ => h.1
  obtain ⟨h2, hkept2, hok2⟩ := h2
  obtain ⟨_, nonce, hop2⟩ := hok2 rfl
  refine makes_look rfl (fun _ _ _ => ?_) fun _ _ _ _ => h2
  refine (h2.phase hop2 rfl (by decide)).bind (fun _ m3 d3 h3 => ?_) fun _ _ _ h _ _ _ => h.1
  obtain ⟨h3, hkept3, hok3⟩ := h3
  obtain ⟨hj3, now, hop3⟩ := hok3 rfl
  refine waitReady_spec.bind (fun _ m4 d4 h4 => ?_) fun _ _ _ h _ _ _ => h.1 ▸ h3.congr h.2.1 h.2.2.2.1
  obtain ⟨rfl, hj4, hlive4, htaken4, _, hproved⟩ := h4
  refine makes_clock fun now => ?_
  refine sustains_memory ?_
  have hlive : sha d4.live = op0.candidate.sha256 := by
    rw [hlive4, hkept3.live, hkept2.live]
    exact hlive1
  refine (succeed_spec (h3.congr hj4 htaken4) (hj4.trans hj3) hop3 rfl rfl rfl (hproved rfl _ _ hop3 rfl) hlive).mono
    fun _ m' _ hdone _ _ hgoing => ?_
  rw [hdone] at hgoing
  cases hgoing

theorem afterInstall_spec {result} (h : ∀ e, result = .error e →
    m.operation.any (!·.status.phase.terminal) = true → Going op0 (some q) m d) :
    Makes sha (afterInstall result) (fun _ _ _ => True) m d := by
  refine sustains_memory ?_
  split
  · rename_i hcond
    cases result with
    | ok _ => cases hcond
    | error e => exact (rollback_spec (h e rfl hcond)).safe
  · trivial

theorem commit_spec (hop : d.journal.operation = some op) (hstaged : op.status.phase = .staged)
    (hinstalled : d.journal.installed = op.old) (hserves : d.Serves op) (ht : d.taken = some q)
    (hcommits : q.request.isCommit = true) : Makes sha commit (fun _ _ _ => True) d.journal d := by
  have hpre : op.status.phase.precommit = true := by rw [hstaged]; rfl
  refine sustains_attempt (verifyCommit_spec hop hpre) fun out m1 d1 h1 => ?_
  obtain ⟨rfl, hcopies, hok⟩ := h1
  have hserves : d1.Serves op := fun q hq => hserves q (hcopies.taken ▸ hq)
  have ht := hcopies.taken.trans ht
  rw [← hcopies.journal] at hop hinstalled ⊢
  cases out with
  | error e =>
    exact (finish_early hop hpre hserves (.inl rfl)).bind (fun _ _ _ _ => trivial) fun _ _ _ _ => trivial
  | ok dir =>
    obtain ⟨rfl, hverified⟩ := hok dir rfl
    refine (enterCommit_spec hop hstaged hinstalled hserves ht hcommits).bind (fun _ m2 d2 h2 => ?_)
      fun _ _ _ _ => trivial
    obtain ⟨h2, hkept2⟩ := h2 rfl
    obtain ⟨om, hom, _⟩ := h2.operation
    refine (h2.phase hom rfl (by decide)).bind (fun _ m3 d3 h3 => ?_) fun _ _ _ _ => trivial
    obtain ⟨h3, hkept3, hok3⟩ := h3
    obtain ⟨hj3, now, hop3⟩ := hok3 rfl
    refine sustains_attempt stopClean_spec fun out m4 d4 h4 => ?_
    obtain ⟨rfl, rfl⟩ := h4
    cases out with
    | error _ => exact (rollback_spec h3).safe
    | ok _ =>
      refine sustains_attempt (installCandidate_spec h3 hcommits hj3 hop3 rfl ((hverified.kept hkept2).kept hkept3))
        fun result m5 d5 h5 => ?_
      exact (afterInstall_spec h5).bind (fun _ _ _ _ => trivial) fun _ _ _ _ => trivial

theorem commitRequest_spec {invocationId configRevision} (h : Anchored sha d) (ht : d.taken = some q)
    (hcommits : q.request.isCommit = true) :
    Makes sha (commitRequest q invocationId configRevision units) (fun _ _ _ => True) d.journal d := by
  refine sustains_memory ?_
  refine sustains_ofExcept (fun fenced _ => ?_) fun _ _ => trivial
  cases fenced with
  | true => exact publish_loaded
  | false =>
    refine sustains_ofExcept (fun op hop => ?_) fun _ _ => trivial
    obtain ⟨hop, hfor⟩ := matching_ok hop
    refine makes_require (fun hcond => ?_) fun _ => trivial
    simp only [Bool.and_eq_true, beq_iff_eq] at hcond
    have hstaged : op.status.phase = .staged := hcond.1.1
    have hpre : op.status.phase.precommit = true := by rw [hstaged]; rfl
    have hserves := Disk.serves_of_isFor ht hfor
    have hfinish : ∀ reason, Makes sha (finish .failed reason) (fun _ _ _ => True) d.journal d :=
      fun _ => (finish_early hop hpre hserves (.inl rfl)).safe
    cases units with
    | error e => exact (hfinish _).bind (fun _ _ _ _ => trivial) fun _ _ _ _ => trivial
    | ok _ =>
      refine makes_clock fun now => ?_
      split
      · exact hfinish _
      · refine makes_attempt_look rfl fun current _ _ => ?_
        have hservice : Makes sha (commitService invocationId current)
            (fun out m' d' => out = .ok true → m' = d.journal ∧ d' = d) d.journal d := by
          unfold commitService
          split
          · exact (hfinish _).bind (fun _ _ _ _ h => by cases h) fun _ _ _ _ h => by cases h
          · split
            · exact (hfinish _).bind (fun _ _ _ _ h => by cases h) fun _ _ _ _ h => by cases h
            · exact fun _ => ⟨rfl, rfl⟩
        refine hservice.bind (fun through m' d' h' => ?_) fun _ _ _ _ => trivial
        cases through with
        | false => trivial
        | true =>
          obtain ⟨rfl, rfl⟩ := h' rfl
          exact commit_spec hop hstaged (h.old op hop (.inl hpre)) hserves ht hcommits

end Commit

/-! ### One execution -/

theorem handle_spec (h : Anchored sha d) (ht : d.taken = some q) :
    Makes sha (handle q units) (fun _ _ _ => True) d.journal d := by
  refine sustains_memory ?_
  refine makes_require (fun _ => ?_) fun _ => trivial
  split
  · rename_i hrequest
    refine sustains_ofExcept (fun request hparse => ?_) fun _ _ => trivial
    have hinbox : request.inbox = q := by
      unfold StageRequest.parse at hparse
      rw [hrequest] at hparse
      simp only at hparse
      split at hparse <;> cases hparse
      rfl
    exact stage_spec (by rw [hinbox]; exact ht) (by rw [hinbox, hrequest]; rfl)
  · rename_i hrequest
    exact commitRequest_spec h ht (by rw [hrequest]; rfl)
  · exact (abort_spec ht).bind (fun _ _ _ _ => trivial) fun _ _ _ _ => trivial
  · exact verifyRecovery_spec h ht

theorem Anchored.take (h : Anchored sha d) : Anchored sha { d with taken := some q } :=
  ⟨h.settled, h.old, h.live, h.ready⟩

theorem Inbox.parse_eq {inbox : Inbox} (h : inbox.parse = .ok q) : q = inbox := by
  have hensure : ∀ {cond text}, (do ensure cond text; return inbox) = .ok q → q = inbox := by
    intro cond text h
    obtain ⟨_, _, h⟩ := bind_eq_ok.mp h
    exact (Except.ok.inj h).symm
  obtain ⟨_, _, h⟩ := bind_eq_ok.mp h
  split at h
  · exact hensure h
  · exact hensure h
  · exact (Except.ok.inj h).symm

theorem run_spec (h : Anchored sha d) (hnone : d.taken = none) : Makes sha run (fun _ _ _ => True) () d := by
  refine makes_look rfl (fun _ _ _ => ?_) fun _ => trivial
  have hread : Makes sha (call .readInbox)
      (fun out _ d' => Anchored sha d' ∧ ∀ q, out = .ok q → d'.taken = some q) () d := by
    refine Program.safe_ask ?_
    rintro r d' ⟨x, hx⟩
    simp only [perform] at hx
    split at hx <;> cases hx
    · exact ⟨.take _ hnone rfl, h.take, fun q hq => by cases hq; rfl⟩
    · exact ⟨.refl _, h, fun q hq => by cases hq⟩
    · exact ⟨.refl _, h, fun q hq => by cases hq⟩
  refine sustains_attempt hread fun content _ d1 h1 => ?_
  obtain ⟨h, htaken⟩ := h1
  refine makes_look rfl (fun _ _ _ => ?_) fun _ => trivial
  refine sustains_ofExcept (fun inbox hinbox => ?_) fun _ _ => trivial
  have ht : d1.taken = some inbox := by
    cases content with
    | error e => cases hinbox
    | ok q =>
      rw [Inbox.parse_eq hinbox]
      exact htaken q rfl
  refine makes_attempt_look rfl fun units _ _ => ?_
  refine makes_attempt_look rfl fun loaded x hx => ?_
  cases loaded with
  | error e => trivial
  | ok journal =>
    have hj := loadJournal_ok hx
    subst hj
    exact sustains_within (handle_spec h ht)

theorem Execution.program_spec (execution : Execution) (h : Anchored sha d) (ht : d.taken = none) :
    Makes sha execution.program (fun _ _ _ => True) () d := by
  cases execution with
  | run => exact run_spec h ht
  | recover boot => exact recover_spec h ht

end Parins.Update
