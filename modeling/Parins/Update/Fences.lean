/-
The terminals that the helper stores: each request meets the one that was stored
for it, the public status shows exactly those that are stored, and none is lost
to another phase of the same operation.
-/
import Parins.Update.Safety

namespace Parins.Update
open Lib

variable {sha : Bytes → Text} {d d' : Disk} {j : Journal} {t : OperationStatus} {op op' : Operation} {q : Inbox}

structure Journal.Stores (j : Journal) (t : OperationStatus) : Prop where
  held : (∃ op, j.operation = some op ∧ op.status = t) ∨ j.lastOperation = some t
  terminal : t.phase.terminal = true

/-- The last operation is a terminal, and one of the held operation is its own status. -/
structure Journal.Fenced (j : Journal) : Prop where
  last : ∀ t, j.lastOperation = some t → t.phase.terminal = true
  apart : ∀ op t, j.operation = some op → j.lastOperation = some t → t.operationId = op.status.operationId → t = op.status

/-! ### The public status -/

/-- The public status has the terminal of the operation, or else the last one, and the other beside it. -/
theorem Journal.Fenced.terminalFor_iff (h : j.Fenced) (now id nonce) :
    (j.status now).terminalFor id nonce = some t ↔ j.Stores t ∧ t.isFor id nonce = true := by
  have hmem : ∀ s : OperationStatus, s.phase.terminal = true →
      (s ∈ (j.status now).lastOperation.toList ++ (j.status now).additionalTerminal.toList ↔ j.Stores s) := by
    intro s hs
    simp only [List.mem_append, Option.mem_toList]
    constructor
    · exact fun hm => ⟨(j.tells_status now).terminals s hm hs, hs⟩
    · rintro ⟨⟨op, hop, rfl⟩ | hlast, _⟩
      · exact .inl (by simp [status, hop, hs])
      · cases hop : j.operation with
        | none => exact .inl (by simp [status, hop, hlast])
        | some op =>
          cases hterminal : op.status.phase.terminal with
          | false =>
            have hfilter : (some op).filter (·.status.phase.terminal) = none := by simp [hterminal]
            exact .inl (by simp only [status, hop, hlast, hfilter]; rfl)
          | true =>
            by_cases hid : s.operationId = op.status.operationId
            · exact .inl (by simp [status, hop, hterminal, h.apart op s hop hlast hid])
            · exact .inr (by simp [status, hop, hlast, hterminal, Ne.symm hid])
  -- two stored terminals of one name are one
  have hunique : ∀ s s' : OperationStatus, j.Stores s → j.Stores s' → s.operationId = s'.operationId → s = s' := by
    rintro s s' ⟨⟨op, hop, rfl⟩ | hlast, _⟩ ⟨⟨op', hop', rfl⟩ | hlast', _⟩ hid
    · rw [hop] at hop'
      cases hop'
      rfl
    · exact (h.apart op s' hop hlast' hid.symm).symm
    · exact h.apart op' s hop' hlast hid
    · rw [hlast] at hlast'
      cases hlast'
      rfl
  constructor
  · intro hfind
    have hfor := List.find?_some hfind
    simp only [Bool.and_eq_true] at hfor
    exact ⟨(hmem t hfor.2).mp (List.mem_of_find?_eq_some hfind), hfor.1⟩
  · rintro ⟨hstores, hfor⟩
    cases hfind : (j.status now).terminalFor id nonce with
    | none =>
      have hnot := List.find?_eq_none.mp hfind t ((hmem t hstores.terminal).mpr hstores)
      simp [hfor, hstores.terminal] at hnot
    | some s =>
      have hfor' := List.find?_some hfind
      simp only [Bool.and_eq_true] at hfor'
      have hstores' := (hmem s hfor'.2).mp (List.mem_of_find?_eq_some hfind)
      have hid : s.operationId = t.operationId :=
        (OperationStatus.isFor_iff.mp hfor'.1).1.trans (OperationStatus.isFor_iff.mp hfor).1.symm
      rw [hunique s t hstores' hstores hid]

/-! ### One write of the journal -/

theorem Journal.Fenced.settled (h : j.Fenced) (hterminal : op'.status.phase.terminal = true) : (j.settled op').Fenced := by
  have hlast : ∀ t, (j.settled op').lastOperation = some t →
      t = op'.status ∨ j.lastOperation = some t ∧ t.operationId ≠ op'.status.operationId := by
    intro t ht
    change Journal.lastAfter j.lastOperation op'.status = some t at ht
    unfold Journal.lastAfter at ht
    split at ht
    · exact .inl (Option.some.inj ht).symm
    · rename_i hall
      rw [ht] at hall
      exact .inr ⟨ht, by simpa using hall⟩
  refine ⟨fun t ht => ?_, fun o t ho ht hid => ?_⟩
  · rcases hlast t ht with rfl | ⟨ht, _⟩
    · exact hterminal
    · exact h.last t ht
  · cases ho
    exact (hlast t ht).resolve_right fun hne => hne.2 hid

theorem Advances.before (h : Advances sha d op op') : op.status.phase.terminal = false := by
  cases h with
  | prepare before => exact Phase.not_terminal_of_precommit before
  | commit q _ _ before => rw [before]; rfl
  | proceed before => exact Phase.not_terminal_of_committed before

theorem Ends.before (h : Ends sha d op op') : op.status.phase.terminal = false := by
  cases h with
  | early before => exact Phase.not_terminal_of_precommit before
  | rolledBack before => exact Phase.not_terminal_of_committed before
  | manual before => exact Phase.not_terminal_of_committed before

theorem Ends.after (h : Ends sha d op op') : op'.status.phase.terminal = true := by
  cases h with
  | early _ after => rcases after with h | h <;> rw [h] <;> rfl
  | rolledBack _ after => rw [after]; rfl
  | manual _ after => rw [after]; rfl

/-- What a write does: it is for a request that the journal lacks, it is of an operation that goes
on, or a recovery replaces the end of a rollback. -/
inductive Saves.Kind (d : Disk) (j : Journal) : Prop
  | other (q : Inbox) (taken : d.taken = some q) (lacks : d.journal.Lacks q.operationId)
      (operation : j.operation = d.journal.operation ∨
        ∃ op', j.operation = some op' ∧ op'.status.operationId = q.operationId)
  | own (op op' : Operation) (holds : d.journal.operation = some op) (goes : op.status.phase.terminal = false)
      (serves : d.Serves op) (after : j.operation = some op') (same : op.Same op')
      (last : j.lastOperation = d.journal.lastOperation ∨
        j.lastOperation = Journal.lastAfter d.journal.lastOperation op'.status)
  | replaced (op op' : Operation) (holds : d.journal.operation = some op) (taken : d.taken = none)
      (shaken : d.mark = .shaken) (after : j.operation = some op') (same : op.Same op')
      (last : j.lastOperation = Journal.lastAfter d.journal.lastOperation op'.status)

theorem Saves.kind (h : Saves sha d j) : Saves.Kind d j := by
  cases h with
  | fence q status taken unknown _ _ => exact .other q taken unknown (.inl rfl)
  | start q op taken _ unknown isFor _ _ _ =>
    exact .other q taken unknown (.inr ⟨op, rfl, (OperationStatus.isFor_iff.mp isFor).1⟩)
  | advance op op' holds serves same advances => exact .own op op' holds advances.before serves rfl same (.inl rfl)
  | finish op op' holds serves same ends => exact .own op op' holds ends.before serves rfl same (.inr rfl)
  | succeed op op' launch holds serves same before _ _ _ _ _ =>
    exact .own op op' holds (by rw [before]; rfl) serves rfl same.toSame (.inr rfl)
  | manual op op' holds recovers shaken same _ _ _ => exact .replaced op op' holds recovers shaken rfl same.toSame rfl

theorem Saves.fenced (h : Saves sha d j) (hf : d.journal.Fenced) : j.Fenced := by
  cases h with
  | fence q status _ unknown isFor terminal =>
    refine ⟨fun t ht => ?_, fun op t hop ht hid => ?_⟩ <;> cases ht
    · exact terminal
    · rw [(OperationStatus.isFor_iff.mp isFor).1] at hid
      exact absurd hid.symm (unknown.operation op hop)
  | start q op _ _ unknown isFor free _ _ =>
    refine ⟨fun t ht => ?_, fun o t ho ht hid => ?_⟩
    · obtain ⟨o, ho, rfl⟩ := Option.map_eq_some_iff.mp ht
      exact (free o ho).1
    · obtain ⟨o', ho', rfl⟩ := Option.map_eq_some_iff.mp ht
      cases ho
      rw [(OperationStatus.isFor_iff.mp isFor).1] at hid
      exact absurd hid (unknown.operation o' ho')
  | advance op op' holds _ same advances =>
    refine ⟨hf.last, fun o t ho ht hid => ?_⟩
    cases ho
    have hgoes := advances.before
    rw [← hf.apart op t holds ht (hid.trans same.id), hf.last t ht] at hgoes
    cases hgoes
  | finish op op' _ _ _ ends => exact hf.settled ends.after
  | succeed op op' _ _ _ _ _ _ _ _ _ after =>
    have hf' : ({ d.journal with installed := op.candidate } : Journal).Fenced := ⟨hf.last, hf.apart⟩
    exact hf'.settled (by rw [after]; rfl)
  | manual op op' _ _ _ _ _ _ after => exact hf.settled (by rw [after]; rfl)

theorem Saves.not_stored (h : Saves sha d j) (hf : d.journal.Fenced) (hq : d.taken = some q) (hs : d.journal.Stores t)
    (hfor : t.isFor q.operationId q.phaseNonce = true) : False := by
  obtain ⟨hid, _⟩ := OperationStatus.isFor_iff.mp hfor
  cases h.kind with
  | other q' taken lacks =>
    rw [hq] at taken
    cases taken
    obtain ⟨⟨op, hop, rfl⟩ | hlast, hterminal⟩ := hs
    · exact lacks.operation op hop hid
    · rw [lacks.last t hlast hid] at hterminal
      cases hterminal
  | own op op' holds goes serves =>
    have hown : t = op.status := by
      rcases hs.held with ⟨o, ho, rfl⟩ | hlast
      · rw [holds] at ho
        cases ho
        rfl
      · exact hf.apart op t holds hlast (hid.trans (serves q hq).1)
    rw [← hown, hs.terminal] at goes
    cases goes
  | replaced _ _ _ taken =>
    rw [hq] at taken
    cases taken

theorem Saves.keeps_operation (h : Saves sha d j) (hop : d.journal.operation = some op)
    (hterminal : op.status.phase.terminal = true) (hcalm : d.taken = none → d.mark ≠ .shaken) :
    ∃ op', j.operation = some op' ∧ (op' = op ∨ op'.status.operationId ≠ op.status.operationId) := by
  cases h.kind with
  | other q _ lacks operation =>
    rcases operation with heq | ⟨op', hop', hid⟩
    · exact ⟨op, heq.trans hop, .inl rfl⟩
    · exact ⟨op', hop', .inr fun heq => lacks.operation op hop (heq.symm.trans hid)⟩
  | own o _ holds goes =>
    rw [hop] at holds
    cases holds
    rw [hterminal] at goes
    cases goes
  | replaced _ _ _ taken shaken => exact absurd shaken (hcalm taken)

/-- A terminal beside the operation stays until a request of a third operation. -/
theorem Saves.keeps_last (h : Saves sha d j) (hlast : d.journal.lastOperation = some t)
    (hterminal : t.phase.terminal = true)
    (hbeside : ∀ op, d.journal.operation = some op → op.status.operationId ≠ t.operationId) :
    j.lastOperation = some t ∨ ∃ q, d.taken = some q ∧ q.operationId ≠ t.operationId ∧
      ∀ op, d.journal.operation = some op → op.status.operationId ≠ q.operationId := by
  have hkeeps : ∀ op op' : Operation, d.journal.operation = some op → op.Same op' →
      Journal.lastAfter d.journal.lastOperation op'.status = some t := by
    intro op op' hop hsame
    unfold Journal.lastAfter
    rw [hlast, if_neg]
    simp only [Option.all_some, beq_iff_eq]
    rw [hsame.id]
    exact (hbeside op hop).symm
  cases h.kind with
  | other q taken lacks =>
    refine .inr ⟨q, taken, fun heq => ?_, lacks.operation⟩
    rw [lacks.last t hlast heq.symm] at hterminal
    cases hterminal
  | own op op' holds _ _ _ same last =>
    rcases last with last | last
    · exact .inl (last.trans hlast)
    · exact .inl (last.trans (hkeeps op op' holds same))
  | replaced op op' holds _ _ _ same last => exact .inl (last.trans (hkeeps op op' holds same))

/-! ### One move, one event -/

theorem Moves.journal (h : Moves sha d d') :
    (d'.journal = d.journal ∨ Saves sha d d'.journal) ∧ ∀ q, d.taken = some q → d'.taken = some q := by
  cases h with
  | quiet journal _ _ taken => exact ⟨.inl journal, fun q hq => taken.trans hq⟩
  | take q first heq =>
    subst heq
    refine ⟨.inl rfl, fun q' hq' => ?_⟩
    rw [first] at hq'
    cases hq'
  | save j saves mark heq =>
    subst heq
    exact ⟨.inr saves, fun q hq => hq⟩
  | publish s _ mark heq =>
    subst heq
    exact ⟨.inl rfl, fun q hq => hq⟩
  | install op q _ _ _ _ _ _ _ journal _ kept => exact ⟨.inl journal, fun q hq => kept.trans hq⟩
  | restore op _ _ _ journal _ kept => exact ⟨.inl journal, fun q hq => kept.trans hq⟩

namespace Host

variable {h : Host} {e : Event}

theorem Sound.journal (hs : h.Sound sha) (e) : (h.step sha e).disk.journal = h.disk.journal ∨
    h.helper.isSome = true ∧ Saves sha h.disk (h.step sha e).disk.journal := by
  have hsteps := (hs.step e).2
  generalize (h.step sha e).disk = d' at hsteps ⊢
  cases hsteps with
  | stay => exact .inl rfl
  | begin => exact .inl rfl
  | move x c next asks moves => exact moves.journal.1.imp_right fun hsaves => ⟨by rw [asks]; rfl, hsaves⟩

theorem Sound.taken (hs : h.Sound sha) (he : ∀ x, e ≠ .start x) {q} (hq : h.disk.taken = some q) :
    (h.step sha e).disk.taken = some q := by
  have hsteps := (hs.step e).2
  generalize (h.step sha e).disk = d' at hsteps ⊢
  cases hsteps with
  | stay => exact hq
  | begin x => exact absurd rfl (he x)
  | move x c next _ moves => exact moves.journal.2 q hq

theorem Sound.fenced (hs : h.Sound sha) (hf : h.disk.journal.Fenced) (e) : (h.step sha e).disk.journal.Fenced := by
  rcases hs.journal e with heq | ⟨_, hsaves⟩
  · rw [heq]
    exact hf
  · exact hsaves.fenced hf

theorem Sound.fenced_run (hs : h.Sound sha) (hf : h.disk.journal.Fenced) (events) :
    (h.run sha events).disk.journal.Fenced := by
  induction events generalizing h with
  | nil => exact hf
  | cons e rest ih => exact ih (hs.step e).1 (hs.fenced hf e)

/-- What is left of the execution that took a stored request writes nothing. -/
theorem Sound.stored (hs : h.Sound sha) (hf : h.disk.journal.Fenced) (hq : h.disk.taken = some q)
    (hstores : h.disk.journal.Stores t) (hfor : t.isFor q.operationId q.phaseNonce = true) (rest)
    (hrest : ∀ x, .start x ∉ rest) : (h.run sha rest).disk.journal = h.disk.journal := by
  induction rest generalizing h with
  | nil => rfl
  | cons e rest ih =>
    have hj : (h.step sha e).disk.journal = h.disk.journal :=
      (hs.journal e).resolve_right fun hsaves => hsaves.2.not_stored hf hq hstores hfor
    have hnot : ∀ x, e ≠ .start x := fun x heq => hrest x (heq ▸ List.mem_cons_self)
    have hrun := ih (hs.step e).1 (by rw [hj]; exact hf) (hs.taken hnot hq) (by rw [hj]; exact hstores)
      fun x hx => hrest x (List.mem_cons_of_mem e hx)
    exact hrun.trans hj

end Host

/-! ### Writes that fail after the end -/

/-- The helper recovers, and its rollback has started the old program. -/
def Host.Restarts (h : Host) : Prop := h.disk.taken = none ∧ h.disk.mark = .restarts

/-- In the rollback of a recovery no write fails once the journal on disk holds the operation's terminal. -/
def Event.Calm (h : Host) : Event → Prop
  | .answer x =>
    match h.helper with
    | some (.ask (.saveJournal j) _) => h.Restarts → j.ended = true → ∀ e, x.fate ≠ .late e
    | some (.ask (.publish _) _) => h.Restarts → h.disk.journal.ended = true → x.fate = .done
    | _ => True
  | _ => True

def Host.Calm (sha : Bytes → Text) : Host → List Event → Prop
  | _, [] => True
  | h, e :: rest => e.Calm h ∧ (h.step sha e).Calm sha rest

def Host.Unshaken (h : Host) : Prop := h.helper.isSome = true → h.disk.taken = none → h.disk.mark ≠ .shaken

variable {x : Outcome}

theorem Outcome.settle_calm (ht : (x.settle d d').2.taken = none) (htaken : d'.taken = d.taken)
    (hmark : d'.mark = d.mark) : d.taken = none ∧ (x.settle d d').2.mark = d.mark := by
  unfold settle at ht ⊢
  split at ht
  · exact ⟨htaken.symm.trans ht, hmark⟩
  · exact ⟨ht, rfl⟩
  · exact ⟨htaken.symm.trans ht, hmark⟩

theorem Mark.stored_shaken {k : Mark} {j : Journal} (h : k.stored j = .shaken) : k = .shaken := by
  unfold stored at h
  split at h
  · cases h
  · exact h

theorem Mark.failed_shaken {k : Mark} {j : Journal} (h : k.failed j = .shaken) :
    k = .shaken ∨ k = .restarts ∧ j.ended = true := by
  unfold failed at h
  split at h
  · exact .inr ‹_›
  · exact .inl h

theorem perform_mark {c} (hs : ∀ j, c ≠ .saveJournal j) (hp : ∀ s, c ≠ .publish s)
    (ht : (perform sha x c d).2.taken = none) : d.taken = none ∧ (perform sha x c d).2.mark = d.mark := by
  cases c with
  | saveJournal j => exact absurd rfl (hs j)
  | publish s => exact absurd rfl (hp s)
  | createDir id | removeFile id name => exact Outcome.settle_calm ht rfl rfl
  | readInbox =>
    simp only [perform] at ht ⊢
    split at ht
    · cases ht
    · exact ⟨ht, rfl⟩
    · exact ⟨ht, rfl⟩
  | removeDir id =>
    simp only [perform] at ht ⊢
    split at ht
    · rw [if_pos ‹_›]
      exact Outcome.settle_calm ht rfl rfl
    · rw [if_neg ‹_›]
      exact ⟨ht, rfl⟩
  | createFile id name =>
    simp only [perform] at ht ⊢
    split at ht
    · rw [if_pos ‹_›]
      exact ⟨ht, rfl⟩
    · rw [if_neg ‹_›]
      split at ht
      · rw [if_pos ‹_›]
        exact ⟨ht, rfl⟩
      · rw [if_neg ‹_›]
        exact Outcome.settle_calm ht rfl rfl
  | hashFile id name | copyPrevious id | wait pending revision =>
    simp only [perform] at ht ⊢
    split at ht <;> exact ⟨ht, rfl⟩
  | promote id | install id name =>
    simp only [perform] at ht ⊢
    split at ht
    · exact Outcome.settle_calm ht rfl rfl
    · exact ⟨ht, rfl⟩
  | _ => exact ⟨ht, rfl⟩

namespace Host

variable {h : Host} {e : Event}

theorem Unshaken.step (hu : h.Unshaken) (hcalm : e.Calm h) : (h.step sha e).Unshaken := by
  intro hsome htaken
  cases e with
  | start x =>
    simp only [Host.step] at htaken ⊢
    split
    · rename_i hask
      rw [hask] at htaken
      exact hu (by rw [hask]; rfl) htaken
    · simp
  | crash => cases hsome
  | answer x =>
    cases hhelper : h.helper with
    | none =>
      simp only [Host.step, hhelper] at hsome
      cases hsome
    | some p =>
      have hu : h.disk.taken = none → h.disk.mark ≠ .shaken := hu (by rw [hhelper]; rfl)
      cases p with
      | pure _ =>
        simp only [Host.step, hhelper] at htaken ⊢
        exact hu htaken
      | ask c next =>
        simp only [Host.step, hhelper] at htaken ⊢
        unfold Event.Calm at hcalm
        rw [hhelper] at hcalm
        by_cases hsave : ∃ j, c = .saveJournal j
        · obtain ⟨j, rfl⟩ := hsave
          have hfate : h.Restarts → j.ended = true → ∀ e, x.fate ≠ .late e := hcalm
          simp only [perform] at htaken ⊢
          split at htaken
          · exact fun hmark => hu htaken (Mark.stored_shaken hmark)
          · exact hu htaken
          · rename_i err hlate
            intro hmark
            obtain ⟨hrestarts, hended⟩ := (Mark.failed_shaken hmark).resolve_left (hu htaken)
            exact hfate ⟨htaken, hrestarts⟩ hended err hlate
        · by_cases hpublish : ∃ s, c = .publish s
          · obtain ⟨s, rfl⟩ := hpublish
            have hfate : h.Restarts → h.disk.journal.ended = true → x.fate = .done := hcalm
            simp only [perform] at htaken ⊢
            split at htaken
            · exact hu htaken
            all_goals
              rename_i hother
              intro hmark
              obtain ⟨hrestarts, hended⟩ := (Mark.failed_shaken hmark).resolve_left (hu htaken)
              rw [hfate ⟨htaken, hrestarts⟩ hended] at hother
              cases hother
          · obtain ⟨htaken, heq⟩ := perform_mark (fun j hj => hsave ⟨j, hj⟩) (fun s hs => hpublish ⟨s, hs⟩) htaken
            rw [heq]
            exact hu htaken

variable {events : List Event}

theorem Unshaken.run (hu : h.Unshaken) (hcalm : h.Calm sha events) : (h.run sha events).Unshaken := by
  induction events generalizing h with
  | nil => exact hu
  | cons e rest ih => exact ih (hu.step hcalm.1) hcalm.2

theorem Calm.append {rest} (hcalm : h.Calm sha (events ++ rest)) : h.Calm sha events := by
  induction events generalizing h with
  | nil => trivial
  | cons e events ih => exact ⟨hcalm.1, ih hcalm.2⟩

theorem calm_of_done (hdone : ∀ x, .answer x ∈ events → x.fate = .done) : h.Calm sha events := by
  induction events generalizing h with
  | nil => trivial
  | cons e rest ih =>
    refine ⟨?_, ih fun x hx => hdone x (List.mem_cons_of_mem e hx)⟩
    cases e with
    | start x => trivial
    | crash => trivial
    | answer x =>
      have hfate := hdone x List.mem_cons_self
      simp only [Event.Calm]
      split
      · intro _ _ err hlate
        rw [hfate] at hlate
        cases hlate
      · exact fun _ _ => hfate
      · trivial

theorem run_append (h : Host) (events rest) : h.run sha (events ++ rest) = (h.run sha events).run sha rest := by
  simp [Host.run]

end Host

/-- The terminals of every run: they are shown exactly, a request that has one writes nothing, one
beside the operation waits for a third operation, and in a calm run none of the operation is replaced. -/
theorem terminals_are_fences (sha : Bytes → Text) (d0 : Disk) (hstart : d0.Starts sha) (hfenced : d0.journal.Fenced)
    (events : List Event) :
    let d := ((⟨d0, none⟩ : Host).run sha events).disk
    (∀ t, d.journal.lastOperation = some t → t.phase.terminal = true) ∧
    (∀ now id nonce t, (d.journal.status now).terminalFor id nonce = some t ↔
      d.journal.Stores t ∧ t.isFor id nonce = true) ∧
    (∀ q t, d.taken = some q → d.journal.Stores t → t.isFor q.operationId q.phaseNonce = true →
      ∀ rest, (∀ x, .start x ∉ rest) → ((⟨d0, none⟩ : Host).run sha (events ++ rest)).disk.journal = d.journal) ∧
    (∀ t, d.journal.lastOperation = some t →
      (∀ op, d.journal.operation = some op → op.status.operationId ≠ t.operationId) →
      ∀ e, ((⟨d0, none⟩ : Host).run sha (events ++ [e])).disk.journal.lastOperation = some t ∨
        ∃ q, d.taken = some q ∧ q.operationId ≠ t.operationId ∧
          ∀ op, d.journal.operation = some op → op.status.operationId ≠ q.operationId) ∧
    ∀ e, (⟨d0, none⟩ : Host).Calm sha (events ++ [e]) →
      ∀ op, d.journal.operation = some op → op.status.phase.terminal = true →
        ∃ op', ((⟨d0, none⟩ : Host).run sha (events ++ [e])).disk.journal.operation = some op' ∧
          (op' = op ∨ op'.status.operationId ≠ op.status.operationId) := by
  intro d
  have hs : ((⟨d0, none⟩ : Host).run sha events).Sound sha := hstart.sound.run events
  have hf : d.journal.Fenced := hstart.sound.fenced_run hfenced events
  refine ⟨hf.last, fun now id nonce t => hf.terminalFor_iff now id nonce, ?_, ?_, ?_⟩
  · intro q t hq hstores hfor rest hrest
    rw [Host.run_append]
    exact hs.stored hf hq hstores hfor rest hrest
  · intro t hlast hbeside e
    rw [Host.run_concat]
    rcases hs.journal e with heq | ⟨_, hsaves⟩
    · exact .inl (by rw [heq]; exact hlast)
    · exact hsaves.keeps_last hlast (hf.last t hlast) hbeside
  · intro e hcalm op hop hterminal
    rw [Host.run_concat]
    rcases hs.journal e with heq | ⟨hsome, hsaves⟩
    · exact ⟨op, by rw [heq]; exact hop, .inl rfl⟩
    · have hu : ((⟨d0, none⟩ : Host).run sha events).Unshaken :=
        Host.Unshaken.run nofun hcalm.append
      exact hsaves.keeps_operation hop hterminal (hu hsome)

/-- A recovery up to where the end of its rollback is stored, and not yet published. -/
def recoverEvents : List Event :=
  .start (.recover false) :: List.replicate 24
    (.answer { sampleOutcome .abort with ticks := sampleTicks sampleOld, service := [(ascii "MainPID", ascii "0")] })

/-- An update, cut off after it stopped the old program, and its recovery. -/
def interruptedEvents : List Event := stageEvents ++ commitEvents 24 ++ [.crash] ++ recoverEvents

theorem terminals_are_fences_sample :
    sampleDisk.Starts sampleSha ∧ sampleDisk.journal.Fenced ∧
    ∃ op op', ((⟨sampleDisk, none⟩ : Host).run sampleSha interruptedEvents).disk.journal.operation = some op ∧
      op.status.phase = .rolledBack ∧ ((⟨sampleDisk, none⟩ : Host).run sampleSha
        (interruptedEvents ++ [.answer {}])).disk.journal.operation = some op' ∧
      (op' = op ∨ op'.status.operationId ≠ op.status.operationId) := by
  have hstart : sampleDisk.Starts sampleSha := ⟨by decide +kernel, fun op hop => by cases hop⟩
  have hfenced : sampleDisk.journal.Fenced := ⟨fun t ht => (by cases ht), fun op t hop => (by cases hop)⟩
  have hcalm : (⟨sampleDisk, none⟩ : Host).Calm sampleSha (interruptedEvents ++ [.answer {}]) := by
    refine Host.calm_of_done fun x hx => ?_
    simp only [interruptedEvents, stageEvents, commitEvents, recoverEvents, List.mem_append, List.mem_cons,
      List.mem_replicate, List.not_mem_nil, or_false] at hx
    rcases hx with ((((h | ⟨_, h⟩) | h | ⟨_, h⟩) | h) | h | ⟨_, h⟩) | h <;> cases h <;> rfl
  have hrun : ((⟨sampleDisk, none⟩ : Host).run sampleSha interruptedEvents).disk.journal.operation.map
      (·.status.phase) = some .rolledBack := by decide +kernel
  obtain ⟨op, hop, hphase⟩ := Option.map_eq_some_iff.mp hrun
  have hfences := terminals_are_fences sampleSha sampleDisk hstart hfenced interruptedEvents
  obtain ⟨op', hop', hkept⟩ := hfences.2.2.2.2 _ hcalm op hop (by rw [hphase]; rfl)
  exact ⟨hstart, hfenced, op, op', hop, hphase, hop', hkept⟩

/-- The recovery stores that the update was rolled back. The public status cannot be written then,
and the same operation calls for the administrator. -/
theorem rolledBack_replaced :
    let told := fun events => ((⟨sampleDisk, none⟩ : Host).run sampleSha events).disk.journal.operation.map fun op =>
      (op.status.operationId, op.status.phaseNonce, op.status.phase)
    told interruptedEvents = some (sampleId 97, sampleId 98, .rolledBack) ∧
    told (interruptedEvents ++ [.answer { fate := .failed .storageFull }, .answer {}, .answer {}]) =
      some (sampleId 97, sampleId 98, .manualRequired) := by
  decide +kernel

end Parins.Update
