/-
The helper's programs make only the moves that are listed. Each function has one
specification: from which journal in memory and which disk it starts, and what a
result or an error leaves.
-/
import Parins.Lib.Outcome
import Parins.Update.Moves

namespace Parins.Update
open Lib
open Lib.Exec (attempt memory modify Ensures Sustains sustains_memory sustains_modify sustains_within sustains_attempt)

variable {sha : Bytes → Text} {M α β : Type} {d d' d1 d2 : Disk}

/-- Every command of `p` is a move, and `p` ends in `Q`. -/
abbrev Makes (sha : Bytes → Text) (p : Exec Cmd Ans M Error α) (Q : Except Error α → M → Disk → Prop) (m : M)
    (d : Disk) : Prop :=
  p.Ensures (effect sha) (Moves sha) Q m d

/-! ### Commands that only look -/

section Look
variable {m : M} {c : Cmd} {f : Ans c → Exec Cmd Ans M Error β} {Q : Except Error β → M → Disk → Prop}

def Cmd.idle : Cmd → Bool
  | .stateDirectory | .removeInbox | .units | .loadJournal | .clock | .nonce | .actualHash | .service | .control _
  | .managerRunning | .openDir _ | .hashFile .. | .space | .manifest _ | .progress | .validateElf _ | .seal _
  | .openLive => true
  | _ => false

theorem perform_idle (sha d) (h : c.idle = true) (x) : (perform sha x c d).2 = d := by
  cases c with
  | hashFile id name =>
    simp only [perform]
    split <;> rfl
  | readInbox | saveJournal | publish | createDir | removeDir | removeFile | createFile | download | promote | copyLive
  | copyPrevious | install | wait => cases h
  | _ => rfl

theorem look_spec (h : c.idle = true) :
    Makes sha (call c) (fun r m' d' => (m' = m ∧ d' = d) ∧ ∃ x, (perform sha x c d).1 = r) m d := by
  refine Program.safe_ask ?_
  rintro r d' ⟨x, hx⟩
  have hd := perform_idle sha d h x
  rw [hx] at hd
  cases hd
  exact ⟨.refl _, ⟨rfl, rfl⟩, x, by rw [hx]⟩

theorem makes_read (h : c.idle = true) (hsafe : ∀ x, ∃ a, (perform sha x c d).1 = .ok a)
    (hok : ∀ a, Makes sha (f a) Q m d) : Makes sha (call c >>= f) Q m d := by
  refine (look_spec h).bind ?_ ?_
  · rintro a m' d' ⟨⟨rfl, rfl⟩, _⟩
    exact hok a
  · rintro e m' d' ⟨_, x, hx⟩
    obtain ⟨a, ha⟩ := hsafe x
    cases ha.symm.trans hx

theorem makes_look (h : c.idle = true) (hok : ∀ a x, (perform sha x c d).1 = .ok a → Makes sha (f a) Q m d)
    (herr : ∀ e, Q (.error e) m d) : Makes sha (call c >>= f) Q m d := by
  refine (look_spec h).bind ?_ ?_
  · rintro a m' d' ⟨⟨rfl, rfl⟩, x, hx⟩
    exact hok a x hx
  · rintro e m' d' ⟨⟨rfl, rfl⟩, _⟩
    exact herr e

theorem makes_attempt_look {f} (h : c.idle = true)
    (hok : ∀ r x, (perform sha x c d).1 = r → Makes sha (f r) Q m d) : Makes sha (attempt (call c) >>= f) Q m d := by
  refine sustains_attempt (look_spec h) ?_
  rintro r m' d' ⟨⟨rfl, rfl⟩, x, hx⟩
  exact hok r x hx

theorem makes_clock {f : Nat → Exec Cmd Ans M Error β} (h : ∀ now, Makes sha (f now) Q m d) :
    Makes sha (call .clock >>= f) Q m d :=
  makes_read rfl (fun x => ⟨x.clock, rfl⟩) h

end Look

variable {op : Operation} {x : Outcome}

section Basic
variable {m : M} {Q : Except Error β → M → Disk → Prop}

theorem Outcome.report_ok {a b : α} (h : x.report a = .ok b) : b = a := by
  unfold report at h
  split at h <;> cases h
  rfl

theorem makes_hash {f : Text → Exec Cmd Ans M Error β} (hok : Makes sha (f (sha d.live)) Q m d)
    (herr : ∀ e, Q (.error e) m d) : Makes sha (call .actualHash >>= f) Q m d := by
  refine makes_look rfl (fun a x ha => ?_) herr
  have ha : a = sha d.live := Outcome.report_ok ha
  exact ha ▸ hok

theorem makes_hashFile {f : Text → Exec Cmd Ans M Error β} {id name}
    (hok : ∀ content, d.file id name = some content → Makes sha (f (sha content)) Q m d)
    (herr : ∀ e, Q (.error e) m d) : Makes sha (call (.hashFile id name) >>= f) Q m d := by
  refine makes_look rfl (fun a x ha => ?_) herr
  simp only [perform] at ha
  cases hfile : d.file id name with
  | none =>
    rw [hfile] at ha
    cases ha
  | some content =>
    rw [hfile] at ha
    have ha : a = sha content := Outcome.report_ok ha
    exact ha ▸ hok content hfile

variable {cond : Bool}

theorem makes_require {text f} {Q : Except Error β → Journal → Disk → Prop}
    {m : Journal} (hok : cond = true → Makes sha (f ()) Q m d) (herr : ∀ e, Q (.error e) m d) :
    Makes sha (require cond text >>= f) Q m d := by
  cases cond with
  | true => exact hok rfl
  | false => exact herr _

theorem makes_doWhen {p Q m}
    (hp : cond = true → Makes sha p Q m d) (hnot : cond = false → Q (.ok ()) m d) : Makes sha (doWhen cond p) Q m d := by
  cases cond with
  | true => exact hp rfl
  | false => exact hnot rfl

theorem theOperation_bind (f) (m : Journal) : (theOperation >>= f : Helper β) m =
    ((match m.operation with
      | some op => pure op
      | none => bail "missing operation") >>= f : Helper β) m := rfl

theorem makes_noOperation {f} {Q : Except Error β → Journal → Disk → Prop} {m : Journal}
    (h : m.operation = none) (herr : ∀ e, Q (.error e) m d) : Makes sha (theOperation >>= f) Q m d := by
  unfold Makes Ensures Sustains
  rw [theOperation_bind, h]
  exact herr _

theorem makes_theOperation {f} {Q : Except Error β → Journal → Disk → Prop} {m : Journal}
    (h : m.operation = some op) (hf : Makes sha (f op) Q m d) : Makes sha (theOperation >>= f) Q m d := by
  unfold Makes Ensures Sustains
  rw [theOperation_bind, h]
  exact hf

end Basic

/-! ### Writing the journal -/

/-- The files and what this execution has seen are as before. -/
structure Kept (d d' : Disk) : Prop where
  live : d'.live = d.live
  staging : d'.staging = d.staging
  taken : d'.taken = d.taken
  proved : d'.proved = d.proved

theorem Kept.refl (d) : Kept d d := ⟨rfl, rfl, rfl, rfl⟩

theorem Journal.tells_status (j : Journal) (now) : j.Tells (j.status now) where
  installed := rfl
  terminals t ht _ := by
    rcases ht with ht | ht
    · simp only [status, Option.or_eq_some_iff, Option.map_eq_some_iff, Option.filter_eq_some_iff] at ht
      rcases ht with ⟨op, ⟨hop, _⟩, hstatus⟩ | ⟨_, hlast⟩
      · exact .inl ⟨op, hop, hstatus⟩
      · exact .inr hlast
    · simp only [status, Option.filter_eq_some_iff] at ht
      exact .inr ht.1

theorem Journal.tells_going {j : Journal} (h : op.status.phase.terminal = false) (now) :
    j.Tells ({ j with operation := some op }.status now) where
  installed := rfl
  terminals t ht _ := by
    rcases ht with ht | ht
    · simp [status, h] at ht
      exact .inr ht
    · simp [status, h] at ht

section Persist
variable {m : Journal}

structure Published (d : Disk) (m : Journal) (out : Except Error Unit) (m' : Journal) (d' : Disk) : Prop where
  memory : m' = m
  kept : Kept d d'
  journal : d'.journal = d.journal
  mark : out = .ok () → d'.mark = d.mark
  shaken : ∀ e, out = .error e → d.journal.ended = true → d.mark ≠ .none → d'.mark = .shaken

theorem Mark.failed_of_ended {k : Mark} {j : Journal} (h : j.ended = true) (hk : k ≠ .none) : k.failed j = .shaken := by
  cases k <;> simp_all [failed]

theorem publish_spec (htells : ∀ now, d.journal.Tells (m.status now)) : Makes sha publish (Published d m) m d := by
  refine makes_clock fun now => ?_
  refine sustains_memory ?_
  refine Program.safe_ask ?_
  rintro r d' ⟨x, hx⟩
  simp only [perform] at hx
  split at hx <;> cases hx
  · exact ⟨.publish _ (htells now) d.mark rfl, rfl, ⟨rfl, rfl, rfl, rfl⟩, rfl, fun _ => rfl, nofun⟩
  · exact ⟨.quiet rfl rfl rfl rfl fun _ _ _ => rfl, rfl, ⟨rfl, rfl, rfl, rfl⟩, rfl, nofun, fun _ _ => Mark.failed_of_ended⟩
  · exact ⟨.publish _ (htells now) _ rfl, rfl, ⟨rfl, rfl, rfl, rfl⟩, rfl, nofun, fun _ _ => Mark.failed_of_ended⟩

/-- A write of the journal, whether it is reported or not. -/
structure Persisted (m : Journal) (d : Disk) (out : Except Error Unit) (m' : Journal) (d' : Disk) : Prop where
  memory : m' = m
  kept : Kept d d'
  result : (out = .ok () ∧ d'.journal = m ∧ (m.restarts = true → d'.mark ≠ .none)) ∨
    ∃ e, out = .error e ∧ (d'.journal = d.journal ∨
      d'.journal = m ∧ (m.ended = true → d.mark ≠ .none → d'.mark = .shaken))

theorem Persisted.marks_of_ok {m' out} (h : Persisted m d out m' d') (hok : out = .ok ()) :
    d'.journal = m ∧ (m.restarts = true → d'.mark ≠ .none) := by
  rcases h.result with ⟨_, hj⟩ | ⟨e, hout, _⟩
  · exact hj
  · cases hok.symm.trans hout

theorem Persisted.journal_of_ok {m' out} (h : Persisted m d out m' d') (hok : out = .ok ()) : d'.journal = m :=
  (h.marks_of_ok hok).1

theorem Persisted.journal_cases {m' out} (h : Persisted m d out m' d') : d'.journal = d.journal ∨ d'.journal = m := by
  rcases h.result with ⟨_, hj, _⟩ | ⟨_, _, hj | ⟨hj, _⟩⟩
  · exact .inr hj
  · exact .inl hj
  · exact .inr hj

theorem Mark.stored_ne {k : Mark} {j : Journal} (h : k ≠ .none ∨ j.restarts = true) : k.stored j ≠ .none := by
  cases k <;> simp_all [stored]

theorem persist_spec (hsave : Saves sha d m) : Makes sha persist (Persisted m d) m d := by
  refine sustains_memory ?_
  refine Program.safe_ask ?_
  rintro r d' ⟨x, hx⟩
  simp only [perform] at hx
  split at hx <;> cases hx
  · refine ⟨.save m hsave _ rfl, ?_⟩
    refine (publish_spec m.tells_status).mono fun out m' d' h => ?_
    obtain ⟨rfl, hkept, hjournal, hmark, hshaken⟩ := h
    refine ⟨rfl, ⟨hkept.live, hkept.staging, hkept.taken, hkept.proved⟩, ?_⟩
    cases out with
    | ok _ =>
      refine .inl ⟨rfl, hjournal, fun hrestarts => ?_⟩
      rw [hmark rfl]
      exact Mark.stored_ne (.inr hrestarts)
    | error e => exact .inr ⟨e, rfl, .inr ⟨hjournal, fun hended hne => hshaken e rfl hended (Mark.stored_ne (.inl hne))⟩⟩
  · exact ⟨.refl _, rfl, .refl _, .inr ⟨_, rfl, .inl rfl⟩⟩
  · exact ⟨.save m hsave _ rfl, rfl, ⟨rfl, rfl, rfl, rfl⟩, .inr ⟨_, rfl, .inr ⟨rfl, Mark.failed_of_ended⟩⟩⟩

end Persist

/-! ### An operation after its commit -/

theorem Operation.Alike.refl (a : Operation) : a.Alike a := ⟨⟨rfl, rfl, rfl⟩, rfl⟩

variable {a b : Operation}

theorem Operation.Alike.trans {c} (h1 : a.Alike b) (h2 : b.Alike c) : a.Alike c :=
  ⟨⟨h2.id.trans h1.id, h2.nonce.trans h1.nonce, h2.old.trans h1.old⟩, h2.candidate.trans h1.candidate⟩

theorem Operation.Alike.symm (h : a.Alike b) : b.Alike a :=
  ⟨⟨h.id.symm, h.nonce.symm, h.old.symm⟩, h.candidate.symm⟩

theorem Disk.Serves.congr {op'} (h : d.Serves op) (hs : op.Same op') (ht : d'.taken = d.taken) : d'.Serves op' := by
  intro q hq
  rw [ht] at hq
  rw [hs.id, hs.nonce]
  exact h q hq

/-- The operation of both journals is `op0`, committed and not ended on disk; they differ in nothing
else. The execution took `t`. -/
structure Going (op0 : Operation) (t : Option Inbox) (m : Journal) (d : Disk) : Prop where
  disk : ∃ od, d.journal.operation = some od ∧ op0.Alike od ∧ od.status.phase.committed = true
  memory : ∃ om, m = { d.journal with operation := some om } ∧ op0.Alike om
  installed : d.journal.installed = op0.old
  serves : d.Serves op0
  taken : d.taken = t

/-- What a rollback that failed leaves: its terminal may be in memory only, or on disk and not reported. -/
structure Stuck (op0 : Operation) (t : Option Inbox) (m : Journal) (d : Disk) : Prop where
  disk : ∃ od, d.journal.operation = some od ∧ op0.Alike od ∧ (od.status.phase.committed = true ∨
    (od.status.phase = .rolledBack ∨ od.status.phase = .manualRequired) ∧ d.mark = .shaken)
  memory : ∃ om last, m = { d.journal with operation := some om, lastOperation := last } ∧ op0.Alike om ∧
    ∀ s : OperationStatus, s.operationId = op0.status.operationId →
      Journal.lastAfter last s = Journal.lastAfter d.journal.lastOperation s
  installed : d.journal.installed = op0.old
  serves : d.Serves op0
  taken : d.taken = t

/-- A second end of one operation leaves what the second alone would. -/
theorem Journal.lastAfter_lastAfter {last} {s s' : OperationStatus}
    (h : s'.operationId = s.operationId) : lastAfter (lastAfter last s) s' = lastAfter last s' := by
  unfold lastAfter
  rw [h]
  split
  · simp
  · simp

variable {reason : Option Text} {p : Phase}

namespace Going

variable {op0 op : Operation} {t : Option Inbox} {m m' : Journal}
variable (h : Going op0 t m d)
include h

theorem stuck : Stuck op0 t m d := by
  obtain ⟨⟨od, hod, halike, hphase⟩, ⟨om, hm, hom⟩, hinstalled, hserves, htaken⟩ := h
  exact ⟨⟨od, hod, halike, .inl hphase⟩, ⟨om, d.journal.lastOperation, hm, hom, fun _ _ => rfl⟩, hinstalled, hserves,
    htaken⟩

theorem congr (hj : d'.journal = d.journal) (ht : d'.taken = d.taken) : Going op0 t m d' := by
  obtain ⟨hd, hm, hi, hs, htaken⟩ := h
  refine ⟨?_, ?_, ?_, fun q hq => hs q (ht ▸ hq), ht.trans htaken⟩
  · rw [hj]
    exact hd
  · rw [hj]
    exact hm
  · rw [hj]
    exact hi

theorem modify {f} (hf : ∀ op : Operation, op.Alike (f op)) :
    Going op0 t (m.setOperation f) d := by
  obtain ⟨hd, ⟨om, rfl, hom⟩, hi, hs, htaken⟩ := h
  exact ⟨hd, ⟨f om, rfl, hom.trans (hf om)⟩, hi, hs, htaken⟩

theorem persist (hop : m.operation = some op) (hcommitted : op.status.phase.committed = true)
    (hready : op.status.phase = .awaitingReadiness → sha d.live = op0.old.sha256) :
    Makes sha persist (fun out m' d' => m' = m ∧ Going op0 t m d' ∧ Kept d d' ∧
      (out = .ok () → d'.journal = m ∧ (m.restarts = true → d'.mark ≠ .none))) m d := by
  obtain ⟨⟨od, hod, halike, hphase⟩, ⟨om, hm, hom⟩, hinstalled, hserves, htaken⟩ := h
  have homop : om = op := by
    rw [hm] at hop
    exact Option.some.inj hop
  subst homop
  have hsame : od.Alike om := halike.symm.trans hom
  have hsave : Saves sha d m := hm ▸ .advance od om hod (hserves.congr halike.toSame rfl) hsame.toSame
    (.proceed hphase hcommitted hsame.candidate fun hp => by rw [halike.old]; exact hready hp)
  refine (persist_spec hsave).mono fun out m' d' hp => ?_
  have hok := hp.marks_of_ok
  have hj := hp.journal_cases
  obtain ⟨rfl, hkept, _⟩ := hp
  refine ⟨rfl, ?_, hkept, hok⟩
  have hserves' : d'.Serves op0 := fun q hq => hserves q (hkept.taken ▸ hq)
  have htaken' : d'.taken = t := hkept.taken.trans htaken
  rcases hj with hj | hj
  · exact ⟨⟨od, by rw [hj]; exact hod, halike, hphase⟩, ⟨om, by rw [hj, hm], hom⟩, by rw [hj]; exact hinstalled,
      hserves', htaken'⟩
  · exact ⟨⟨om, by rw [hj, hm], hom, hcommitted⟩, ⟨om, by rw [hj, hm], hom⟩, by rw [hj, hm]; exact hinstalled,
      hserves', htaken'⟩

/-- The operation goes on in memory and on disk. -/
theorem advance (g : Operation → Operation) (hop : m.operation = some op)
    (hg : ∀ op : Operation, op.Alike (g op)) (hcommitted : (g op).status.phase.committed = true)
    (hready : (g op).status.phase = .awaitingReadiness → sha d.live = op0.old.sha256) :
    Makes sha (do Lib.Exec.modify (·.setOperation g); Update.persist) (fun out m' d' => Going op0 t m' d' ∧ Kept d d' ∧
      (out = .ok () → d'.journal = m' ∧ m'.operation = some (g op) ∧ (m'.restarts = true → d'.mark ≠ .none))) m d := by
  have hop' : (m.setOperation g).operation = some (g op) := by simp [Journal.setOperation, hop]
  refine sustains_modify (((h.modify hg).persist hop' hcommitted hready).mono fun out m' d' hpost => ?_)
  obtain ⟨rfl, hgoing, hkept, hok⟩ := hpost
  exact ⟨hgoing, hkept, fun ho => ⟨(hok ho).1, hop', (hok ho).2⟩⟩

theorem operation : ∃ om, m.operation = some om ∧ op0.Alike om := by
  obtain ⟨om, hm, hom⟩ := h.memory
  exact ⟨om, by rw [hm], hom⟩

theorem phase (hop : m.operation = some op) (hp : p.committed = true)
    (hready : p ≠ .awaitingReadiness) : Makes sha (Update.phase p) (fun out m' d' => Going op0 t m' d' ∧ Kept d d' ∧
      (out = .ok () → d'.journal = m' ∧ ∃ now, m'.operation = some (op.enter p now))) m d := by
  refine makes_theOperation hop (makes_clock fun now => ?_)
  refine (h.advance (·.enter p now) hop (fun _ => ⟨⟨rfl, rfl, rfl⟩, rfl⟩) hp fun hp => absurd hp hready).mono
    fun out m' d' hpost => ?_
  exact ⟨hpost.1, hpost.2.1, fun ho => ⟨(hpost.2.2 ho).1, now, (hpost.2.2 ho).2.1⟩⟩

theorem launch (hop : m.operation = some op) (hp : p.committed = true)
    (hready : p = .awaitingReadiness → sha d.live = op0.old.sha256) :
    Makes sha (Update.launch p) (fun out m' d' => Going op0 t m' d' ∧ Kept d d' ∧
      (out = .ok () → d'.journal = m' ∧ ∃ nonce, m'.operation = some (op.launching p nonce))) m d := by
  refine makes_theOperation hop ?_
  refine makes_read rfl (fun x => ⟨x.nonce, rfl⟩) fun nonce => ?_
  refine (h.advance (·.launching p nonce) hop (fun _ => ⟨⟨rfl, rfl, rfl⟩, rfl⟩) hp hready).mono fun out m' d' hpost => ?_
  exact ⟨hpost.1, hpost.2.1, fun ho => ⟨(hpost.2.2 ho).1, nonce, (hpost.2.2 ho).2.1⟩⟩

theorem finish (hp : (p = .rolledBack ∧ sha d.live = op0.old.sha256) ∨ p = .manualRequired) :
    Makes sha (Update.finish p reason)
      (fun out m' d' => ∀ e, out = .error e → d.mark ≠ .none → Stuck op0 t m' d') m d := by
  refine makes_clock fun now => ?_
  refine sustains_modify ?_
  obtain ⟨⟨od, hod, halike, hphase⟩, ⟨om, rfl, hom⟩, hinstalled, hserves, htaken⟩ := h
  let om' : Operation := { om with
    status := { om.status with phase := p, reason := reason, updatedAtMs := now }, pendingLaunch := none }
  have hom' : op0.Alike om' := hom.trans ⟨⟨rfl, rfl, rfl⟩, rfl⟩
  have hsame : od.Alike om' := halike.symm.trans hom'
  have hserves_od : d.Serves od := hserves.congr halike.toSame rfl
  have hsave : Saves sha d (d.journal.settled om') := by
    refine .finish od om' hod hserves_od hsame.toSame ?_
    rcases hp with ⟨rfl, hlive⟩ | rfl
    · exact .rolledBack hphase rfl (by rw [halike.old]; exact hlive)
    · exact .manual hphase rfl hsame.candidate
  have hterminal : p.terminal = true := by rcases hp with ⟨rfl, _⟩ | rfl <;> rfl
  refine (persist_spec hsave).mono fun out m' d' hpost e hout hmark => ?_
  obtain ⟨rfl, hkept, hresult⟩ := hpost
  have hserves' : d'.Serves op0 := fun q hq => hserves q (hkept.taken ▸ hq)
  have htaken' : d'.taken = t := hkept.taken.trans htaken
  rcases hresult with ⟨hok, _⟩ | ⟨_, _, hj | ⟨hj, hshaken⟩⟩
  · rw [hout] at hok
    cases hok
  · refine ⟨⟨od, by rw [hj]; exact hod, halike, .inl hphase⟩,
      ⟨om', _, by rw [hj]; rfl, hom', ?_⟩, by rw [hj]; exact hinstalled, hserves', htaken'⟩
    intro s hs
    rw [hj]
    exact Journal.lastAfter_lastAfter (hs.trans hom'.id.symm)
  · refine ⟨⟨om', by rw [hj]; rfl, hom', .inr ⟨?_, hshaken ?_ hmark⟩⟩,
      ⟨om', d'.journal.lastOperation, by rw [hj]; rfl, hom',
      fun _ _ => rfl⟩, by rw [hj]; exact hinstalled, hserves', htaken'⟩
    · rcases hp with ⟨rfl, _⟩ | rfl
      · exact .inl rfl
      · exact .inr rfl
    · simp [Journal.ended, Journal.settled, om', hterminal]

end Going

theorem Stuck.finish {op0 m} (h : Stuck op0 none m d) :
    Makes sha (Update.finish .manualRequired reason) (fun _ _ _ => True) m d := by
  refine makes_clock fun now => ?_
  refine sustains_modify ?_
  obtain ⟨⟨od, hod, halike, hphase⟩, ⟨om, last, rfl, hom, hlast⟩, hinstalled, hserves, htaken⟩ := h
  let om' : Operation := { om with
    status := { om.status with phase := .manualRequired, reason := reason, updatedAtMs := now }, pendingLaunch := none }
  have hom' : op0.Alike om' := hom.trans ⟨⟨rfl, rfl, rfl⟩, rfl⟩
  have hsame : od.Alike om' := halike.symm.trans hom'
  have hsettled : { d.journal with operation := some om, lastOperation := last }.finish .manualRequired reason now =
      d.journal.settled om' := by
    show ({ d.journal with operation := some om', lastOperation := Journal.lastAfter last om'.status } : Journal) = _
    rw [hlast om'.status hom'.id]
    rfl
  rw [hsettled]
  have hsave : Saves sha d (d.journal.settled om') := by
    rcases hphase with hphase | ⟨hphase, hshaken⟩
    · exact .finish od om' hod (hserves.congr halike.toSame rfl) hsame.toSame (.manual hphase rfl hsame.candidate)
    · exact .manual od om' hod htaken hshaken hsame (hinstalled.trans halike.old.symm) hphase rfl
  exact (persist_spec hsave).safe

/-! ### Commands on files -/

/-- Nothing but files in `P` changed. -/
structure Touches (P : Text → FileName → Prop) (d d' : Disk) : Prop where
  journal : d'.journal = d.journal
  status : d'.status = d.status
  live : d'.live = d.live
  taken : d'.taken = d.taken
  files : ∀ id name, ¬P id name → d'.file id name = d.file id name

section Files
variable {P : Text → FileName → Prop} {id : Text} {name : FileName} {content : Option Bytes}

theorem Touches.refl (d) : Touches P d d := ⟨rfl, rfl, rfl, rfl, fun _ _ _ => rfl⟩

theorem Touches.putFile (d : Disk) (h : P id name) : Touches P d (d.putFile id name content) where
  journal := rfl
  status := rfl
  live := rfl
  taken := rfl
  files id' name' hP := by
    rw [Disk.file_putFile, if_neg]
    intro heq
    exact hP (heq.1 ▸ heq.2 ▸ h)

theorem Touches.settle (h : Touches P d d') (x : Outcome) : Touches P d (x.settle d d').2 := by
  unfold Outcome.settle
  split
  · exact h
  · exact .refl d
  · exact h

/-- No operation needs the copies that `P` speaks of. -/
def Disk.Spares (d : Disk) (P : Text → FileName → Prop) : Prop :=
  ∀ op, d.journal.operation = some op → op.status.phase.holds = true → ¬P op.status.operationId .previous

theorem Touches.moves (h : Touches P d d') (hspares : d.Spares P) : Moves sha d d' :=
  .quiet h.journal h.status h.live h.taken fun op hop hholds => h.files _ _ (hspares op hop hholds)

theorem Touches.spares (h : Touches P d d') {P'} (hs : d.Spares P') : d'.Spares P' := by
  intro op hop
  exact hs op (h.journal ▸ hop)

theorem Touches.trans (h1 : Touches P d d1) (h2 : Touches P d1 d2) : Touches P d d2 :=
  ⟨h2.journal.trans h1.journal, h2.status.trans h1.status, h2.live.trans h1.live, h2.taken.trans h1.taken,
    fun id name hP => (h2.files id name hP).trans (h1.files id name hP)⟩

theorem makes_touch {m c} {f : Ans c → Exec Cmd Ans M Error β} {Q : Except Error β → M → Disk → Prop}
    (htouch : ∀ x, Touches P d (perform sha x c d).2) (hspares : d.Spares P)
    (hok : ∀ a x d', perform sha x c d = (.ok a, d') → Touches P d d' → Makes sha (f a) Q m d')
    (herr : ∀ e d', Touches P d d' → Q (.error e) m d') : Makes sha (call c >>= f) Q m d := by
  refine Program.safe_ask ?_
  rintro r d' ⟨x, hx⟩
  have ht := htouch x
  rw [hx] at ht
  refine ⟨ht.moves hspares, ?_⟩
  cases r with
  | ok a => exact hok a x d' hx ht
  | error e => exact herr e d' ht

theorem touches_removeFile (h : P id name) (x) : Touches P d (perform sha x (.removeFile id name) d).2 :=
  Touches.settle (.putFile d h) x

theorem touches_createFile (h : P id name) (x) : Touches P d (perform sha x (.createFile id name) d).2 := by
  show Touches P d (if (d.staging id).isNone then (Except.error missing, d)
    else if (d.file id name).isSome then (.error exists_, d)
    else x.settle d (d.putFile id name (some []))).2
  split
  · exact .refl d
  · split
    · exact .refl d
    · exact Touches.settle (.putFile d h) x

theorem touches_copyPrevious (h : P id .rollback) (x) : Touches P d (perform sha x (.copyPrevious id) d).2 := by
  simp only [perform]
  split
  · exact .putFile d h
  · exact .refl d

theorem touches_copyLive (h : P id .previous) (x) : Touches P d (perform sha x (.copyLive id) d).2 :=
  .putFile d h

theorem touches_download {tuple} (h : P id .candidatePart) (x) :
    Touches P d (perform sha x (.download id tuple) d).2 :=
  .putFile d h

theorem touches_promote (h : P id .candidatePart) (h' : P id .candidate) (x) :
    Touches P d (perform sha x (.promote id) d).2 := by
  simp only [perform]
  split
  · exact Touches.settle ((Touches.putFile d h).trans (.putFile _ h')) x
  · exact .refl d

theorem Touches.directory {folder} (h : folder = none ∨ folder = some {} ∨ folder = d.staging id)
    (hold : d.staging id = none ∨ d.staging id = some {} ∨ folder = d.staging id) :
    Touches P d { d with staging := Function.update d.staging id folder } := by
  refine ⟨rfl, rfl, rfl, rfl, fun id' name _ => ?_⟩
  show (Function.update d.staging id folder id').bind (·.get name) = (d.staging id').bind (·.get name)
  by_cases hid : id' = id
  · subst hid
    rw [Function.update_self]
    rcases hold with hold | hold | hold
    · rcases h with rfl | rfl | rfl
      · rw [hold]
      · rw [hold]
        cases name <;> rfl
      · rfl
    · rcases h with rfl | rfl | rfl
      · rw [hold]
        cases name <;> rfl
      · rw [hold]
      · rfl
    · rw [hold]
  · rw [Function.update_of_ne hid]

theorem touches_createDir (x) : Touches P d (perform sha x (.createDir id) d).2 := by
  refine Touches.settle (.directory ?_ ?_) x
  · cases h : d.staging id <;> simp
  · cases h : d.staging id <;> simp

theorem touches_removeDir (x) : Touches P d (perform sha x (.removeDir id) d).2 := by
  show Touches P d (if d.staging id = some {} then x.settle d { d with staging := Function.update d.staging id none }
    else (Except.error (.message (ascii "Directory not empty")), d)).2
  split
  · rename_i h
    exact Touches.settle (.directory (.inl rfl) (.inr (.inl h))) x
  · exact .refl d

theorem perform_install {content} (x : Outcome) (h : d.file id name = some content) :
    perform sha x (.install id name) d = x.settle d { d.putFile id name none with live := content } := by
  simp only [perform, h]

theorem perform_install_none (x) (h : d.file id name = none) :
    perform sha x (.install id name) d = (.error missing, d) := by
  simp only [perform, h]

end Files

/-! ### Rolling back -/

variable {boot : Bool}

section Rollback
variable {op0 op : Operation} {t : Option Inbox} {m : Journal}

theorem Going.touched {P} (h : Going op0 t m d) (ht : Touches P d d') : Going op0 t m d' :=
  h.congr ht.journal ht.taken

theorem candidateDir_spec {f} {Q : Except Error β → Journal → Disk → Prop} (hop : m.operation = some op)
    (hok : (d.staging op.status.operationId).isSome = true → Makes sha (f op.status.operationId) Q m d)
    (herr : ∀ e, Q (.error e) m d) : Makes sha (candidateDir >>= f) Q m d := by
  have hspec : Makes sha candidateDir (fun out m' d' => m' = m ∧ d' = d ∧
      ∀ dir, out = .ok dir → dir = op.status.operationId ∧ (d.staging op.status.operationId).isSome = true) m d := by
    refine makes_theOperation hop ?_
    refine makes_look rfl (fun a x ha => ?_) fun e => ⟨rfl, rfl, nofun⟩
    refine ⟨rfl, rfl, fun dir h => ?_⟩
    cases h
    refine ⟨rfl, ?_⟩
    change (if (d.staging op.status.operationId).isSome then x.report () else .error missing) = .ok a at ha
    split at ha
    · assumption
    · cases ha
  refine hspec.bind (fun dir m' d' h => ?_) fun e m' d' h => ?_
  · obtain ⟨rfl, rfl, h⟩ := h
    obtain ⟨rfl, hsome⟩ := h dir rfl
    exact hok hsome
  · obtain ⟨rfl, rfl, _⟩ := h
    exact herr e

theorem rollbackStop_spec : Makes sha rollbackStop (fun _ m' d' => m' = m ∧ d' = d) m d := by
  refine makes_attempt_look rfl fun _ _ _ => ?_
  refine makes_look rfl (fun info _ _ => ?_) fun _ => ⟨rfl, rfl⟩
  unfold require
  cases ensure ((info : Service).get "MainPID" == some (ascii "0")) "old process has not exited" <;> exact ⟨rfl, rfl⟩

theorem restorePrevious_spec (h : Going op0 t m d) :
    Makes sha (restorePrevious op0.old) (fun out m' d' => m' = m ∧ Going op0 t m d' ∧ d'.journal = d.journal ∧
      (out = .ok () → sha d'.live = op0.old.sha256)) m d := by
  obtain ⟨om, hom, halike⟩ := h.operation
  obtain ⟨od, hod, hodalike, hodphase⟩ := h.disk
  let P : Text → FileName → Prop := fun _ name => name = .rollback
  have hspares : ∀ d : Disk, d.Spares P := fun d op _ _ hP => by cases hP
  refine candidateDir_spec hom (fun _ => ?_) fun e => ⟨rfl, h, rfl, nofun⟩
  rw [halike.id]
  refine makes_hashFile (fun copy hcopy => ?_) fun e => ⟨rfl, h, rfl, nofun⟩
  refine makes_require (fun hsha => ?_) fun e => ⟨rfl, h, rfl, nofun⟩
  have hsha : sha copy = op0.old.sha256 := by simpa using hsha
  refine makes_touch (P := P) (touches_removeFile rfl) (hspares d) (fun _ _ d1 _ ht1 => ?_)
    fun e d' ht => ⟨rfl, h.touched ht, ht.journal, nofun⟩
  refine makes_touch (P := P) (touches_createFile rfl) (hspares d1) (fun _ _ d2 _ ht2 => ?_)
    fun e d' ht => ⟨rfl, h.touched (ht1.trans ht), (ht1.trans ht).journal, nofun⟩
  have ht2 := ht1.trans ht2
  have hcopy2 : d2.file op0.status.operationId .previous = some copy := by
    rw [ht2.files _ _ fun hP => by cases hP]
    exact hcopy
  refine makes_touch (P := P) (touches_copyPrevious rfl) (hspares d2) (fun a x d3 hx ht3 => ?_)
    fun e d' ht => ⟨rfl, h.touched (ht2.trans ht), (ht2.trans ht).journal, nofun⟩
  have ht3 := ht2.trans ht3
  -- the copy was made whole, or the command would have failed
  have hrollback : ∀ content, d3.file op0.status.operationId .rollback = some content → content = copy := by
    intro content hcontent
    simp only [perform, hcopy2, Prod.mk.injEq] at hx
    obtain ⟨hreport, rfl⟩ := hx
    have hfate : x.report copy = .ok copy := by
      unfold Outcome.report at hreport ⊢
      split at hreport <;> first | rfl | cases hreport
    rw [Disk.file_putFile, if_pos ⟨rfl, rfl⟩, hfate] at hcontent
    cases hstaging : d2.staging op0.status.operationId with
    | none => simp [hstaging] at hcontent
    | some _ =>
      simp [hstaging] at hcontent
      exact hcontent.symm
  refine Program.safe_ask ?_
  rintro r d' ⟨y, hy⟩
  have hgoing3 : Going op0 t m d3 := h.touched ht3
  cases hfile : d3.file op0.status.operationId .rollback with
  | none =>
    rw [perform_install_none y hfile] at hy
    cases hy
    exact ⟨.refl _, rfl, hgoing3, ht3.journal, nofun⟩
  | some content =>
    rw [perform_install y hfile] at hy
    have hcontent : sha content = op0.old.sha256 := (congrArg sha (hrollback content hfile)).trans hsha
    have hod3 : d3.journal.operation = some od := ht3.journal ▸ hod
    have hmove : Moves sha d3 { d3.putFile op0.status.operationId .rollback none with live := content } := by
      refine .restore od hod3 hodphase ?_ rfl rfl rfl (Disk.file_putFile_of_ne (by decide))
      rw [hodalike.old]
      exact hcontent
    have hgoing : Going op0 t m { d3.putFile op0.status.operationId .rollback none with live := content } :=
      hgoing3.congr rfl rfl
    unfold Outcome.settle at hy
    split at hy <;> cases hy
    · exact ⟨hmove, rfl, hgoing, ht3.journal, fun _ => hcontent⟩
    · exact ⟨.refl _, rfl, hgoing3, ht3.journal, nofun⟩
    · exact ⟨hmove, rfl, hgoing, ht3.journal, nofun⟩

/-- Judging a launch changes nothing but what has been proved. -/
theorem waitReady_spec {m : Journal} : Makes sha waitReady (fun out m' d' => m' = m ∧ d'.journal = d.journal ∧
    d'.live = d.live ∧ d'.taken = d.taken ∧ d'.mark = d.mark ∧ (out = .ok () → ∀ op launch, m.operation = some op →
      op.pendingLaunch = some launch → launch ∈ d'.proved)) m d := by
  cases hop : m.operation with
  | none => exact makes_noOperation hop fun e => ⟨rfl, rfl, rfl, rfl, rfl, nofun⟩
  | some op =>
    refine makes_theOperation hop ?_
    cases hpending : op.pendingLaunch with
    | none => exact ⟨rfl, rfl, rfl, rfl, rfl, nofun⟩
    | some pending =>
      refine Program.safe_ask ?_
      rintro r d' ⟨x, hx⟩
      simp only [perform] at hx
      split at hx <;> cases hx
      · refine ⟨.quiet rfl rfl rfl rfl fun _ _ _ => rfl, rfl, rfl, rfl, rfl, rfl, fun _ op' launch hop' hlaunch => ?_⟩
        cases hop'
        rw [hpending] at hlaunch
        cases hlaunch
        exact List.mem_cons_self
      · exact ⟨.refl _, rfl, rfl, rfl, rfl, rfl, nofun⟩

theorem Phase.not_terminal_of_committed {p : Phase} (h : p.committed = true) : p.terminal = false := by
  cases p <;> first | rfl | cases h

theorem restartOld_spec {reason} (h : Going op0 t m d) (hop : m.operation = some op)
    (hp : op.status.phase.committed = true) (hready : op.status.phase ≠ .awaitingReadiness)
    (hlive : sha d.live = op0.old.sha256) :
    Makes sha (restartOld reason) (fun out m' d' => ∀ e, out = .error e → Stuck op0 t m' d') m d := by
  refine (h.advance (fun op => { op with rollbackStarted := true }) hop (fun _ => ⟨⟨rfl, rfl, rfl⟩, rfl⟩) hp
    fun hp => absurd hp hready).bind (fun _ m1 d1 h1 => ?_) fun e m1 d1 h1 _ _ => h1.1.stuck
  obtain ⟨hg1, hkept, hok⟩ := h1
  obtain ⟨_, hop1, hmark⟩ := hok rfl
  have hlive1 : sha d1.live = op0.old.sha256 := hkept.live ▸ hlive
  -- the start of the old program is stored, and the operation goes on
  have hmark1 : d1.mark ≠ .none := by
    refine hmark ?_
    simp [Journal.restarts, hop1, Phase.not_terminal_of_committed hp]
  have hstart : Makes sha (do call (.control .start); waitReady)
      (fun _ m' d' => Going op0 t m' d' ∧ sha d'.live = op0.old.sha256 ∧ d'.mark ≠ .none) m1 d1 := by
    refine makes_look rfl (fun _ _ _ => ?_) fun _ => ⟨hg1, hlive1, hmark1⟩
    refine waitReady_spec.mono fun _ m' d' h' => ?_
    obtain ⟨rfl, hj, hl, ht, hm, _⟩ := h'
    exact ⟨hg1.congr hj ht, hl ▸ hlive1, hm ▸ hmark1⟩
  refine sustains_attempt hstart fun out m2 d2 h2 => ?_
  cases out with
  | ok _ => exact (h2.1.finish (.inl ⟨rfl, h2.2.1⟩)).mono fun _ _ _ hpost e he => hpost e he h2.2.2
  | error _ => exact (h2.1.finish (.inr rfl)).mono fun _ _ _ hpost e he => hpost e he h2.2.2

theorem rollBack_spec {reason} (h : Going op0 t m d) :
    Makes sha (rollBack op0 (sha d.live) reason boot) (fun out m' d' => ∀ e, out = .error e → Stuck op0 t m' d') m d := by
  refine sustains_modify ?_
  have hgoing : Going op0 t (m.setOperation fun op => { op with rollbackAttempted := true }) d :=
    h.modify fun op => ⟨⟨rfl, rfl, rfl⟩, rfl⟩
  obtain ⟨om, hom, _⟩ := hgoing.operation
  refine (hgoing.phase hom rfl (by decide)).bind (fun _ m1 d1 h1 => ?_) fun e m1 d1 h1 _ _ => h1.1.stuck
  obtain ⟨hg1, hkept1, hok1⟩ := h1
  obtain ⟨hj1, now, hop1⟩ := hok1 rfl
  have hstop : Makes sha (doWhen (!boot) rollbackStop) (fun _ m' d' => m' = m1 ∧ d' = d1) m1 d1 :=
    makes_doWhen (fun _ => rollbackStop_spec) fun _ => ⟨rfl, rfl⟩
  refine hstop.bind (fun _ m' d' h' => ?_) fun e m' d' h' _ _ => ?_
  swap
  · rw [h'.1, h'.2]
    exact hg1.stuck
  rw [h'.1, h'.2]
  have hrestore : Makes sha (doWhen (sha d.live != op0.old.sha256) (restorePrevious op0.old))
      (fun out m' d' => m' = m1 ∧ Going op0 t m1 d' ∧ d'.journal = d1.journal ∧
        (out = .ok () → sha d'.live = op0.old.sha256)) m1 d1 := by
    refine makes_doWhen (fun _ => restorePrevious_spec hg1) fun heq => ⟨rfl, hg1, rfl, fun _ => ?_⟩
    rw [hkept1.live]
    simpa using heq
  refine hrestore.bind (fun _ m2 d2 h2 => ?_) fun e m2 d2 h2 _ _ => h2.1 ▸ h2.2.1.stuck
  obtain ⟨rfl, hg2, _, hlive2⟩ := h2
  have hlive2 := hlive2 rfl
  refine (hg2.launch hop1 (by cases boot <;> rfl) fun _ => hlive2).bind (fun _ m3 d3 h3 => ?_)
    fun e m3 d3 h3 _ _ => h3.1.stuck
  obtain ⟨hg3, hkept3, hok3⟩ := h3
  obtain ⟨_, nonce, hop3⟩ := hok3 rfl
  refine makes_doWhen (fun hboot => ?_) nofun
  have hboot : boot = false := by simpa using hboot
  subst hboot
  exact restartOld_spec hg3 hop3 rfl (show Phase.rollingBack ≠ .awaitingReadiness by decide) (hkept3.live ▸ hlive2)

theorem rollback_spec {reason : Text} (h : Going op0 t m d) :
    Makes sha (rollback reason boot) (fun out m' d' => ∀ e, out = .error e → ∃ op, Stuck op t m' d') m d := by
  obtain ⟨om, hom, halike⟩ := h.operation
  -- from here on the operation in memory stands for both
  have h : Going om t m d := by
    obtain ⟨⟨od, hod, hod', hphase⟩, ⟨om', hm, hom'⟩, hi, hs, ht⟩ := h
    exact ⟨⟨od, hod, halike.symm.trans hod', hphase⟩, ⟨om', hm, halike.symm.trans hom'⟩, hi.trans halike.old.symm,
      hs.congr halike.toSame rfl, ht⟩
  refine makes_theOperation hom ?_
  refine makes_require (fun _ => ?_) fun e _ _ => ⟨om, h.stuck⟩
  refine makes_hash ?_ fun e _ _ => ⟨om, h.stuck⟩
  refine makes_require (fun _ => ?_) fun e _ _ => ⟨om, h.stuck⟩
  exact (rollBack_spec h).mono fun _ _ _ hpost e he => ⟨om, hpost e he⟩

end Rollback

/-! ### Recovery -/

section Recover
variable {op0 op : Operation} {m : Journal}

theorem rollbackOrManual_spec (h : Going op0 none m d) :
    Makes sha (rollbackOrManual boot) (fun _ _ _ => True) m d := by
  refine sustains_attempt (rollback_spec h) fun out m' d' h' => ?_
  cases out with
  | ok _ => trivial
  | error e =>
    obtain ⟨op, hstuck⟩ := h' e rfl
    exact hstuck.finish.bind (fun _ _ _ _ => trivial) fun _ _ _ _ => trivial

theorem judgeRollback_spec (h : Going op none m d) : Makes sha (judgeRollback op) (fun _ _ _ => True) m d := by
  have hmanual : ∀ {m d reason}, Going op none m d → Makes sha (finish .manualRequired reason) (fun _ _ _ => True) m d :=
    fun h => (h.finish (.inr rfl)).safe
  refine makes_hash ?_ fun _ => trivial
  split
  · rename_i hcond
    refine sustains_attempt waitReady_spec fun out m' d' h' => ?_
    obtain ⟨rfl, hj, hl, ht, _⟩ := h'
    cases out with
    | ok _ => exact ((h.congr hj ht).finish (.inl ⟨rfl, hl ▸ hcond.1⟩)).safe
    | error _ => exact hmanual (h.congr hj ht)
  · exact hmanual h

theorem stillRunning_spec : Makes sha (stillRunning op) (fun out m' d' => m' = m ∧ d' = d ∧
    (out = .ok true → sha d.live = op.old.sha256)) m d := by
  unfold stillRunning
  split
  · exact ⟨rfl, rfl, nofun⟩
  · refine makes_hash ?_ fun _ => ⟨rfl, rfl, nofun⟩
    split
    · exact ⟨rfl, rfl, nofun⟩
    · rename_i hlive
      refine makes_attempt_look rfl fun r _ _ => ?_
      cases r with
      | ok _ => exact ⟨rfl, rfl, fun _ => by simpa using hlive⟩
      | error _ => exact ⟨rfl, rfl, nofun⟩

theorem recoverRunning_spec (h : Going op none m d) (hop : m.operation = some op) :
    Makes sha (recoverRunning op) (fun _ _ _ => True) m d := by
  refine makes_read rfl (fun x => ⟨x.running, rfl⟩) fun running => ?_
  split
  · exact (h.phase hop rfl (by decide)).safe
  · split
    · exact judgeRollback_spec h
    · refine stillRunning_spec.bind (fun still m' d' h' => ?_) fun _ _ _ _ => trivial
      obtain ⟨rfl, rfl, hlive⟩ := h'
      cases still with
      | false => exact rollbackOrManual_spec h
      | true =>
        have hlive := hlive rfl
        refine (h.launch hop rfl fun _ => hlive).bind (fun _ m1 d1 h1 => ?_) fun _ _ _ _ => trivial
        obtain ⟨hg1, hkept, _⟩ := h1
        refine sustains_attempt waitReady_spec fun out m2 d2 h2 => ?_
        obtain ⟨rfl, hj, hl, ht, _⟩ := h2
        have hg2 : Going op none m2 d2 := hg1.congr hj ht
        cases out with
        | ok _ =>
          exact (hg2.finish (.inl ⟨rfl, by rw [hl, hkept.live]; exact hlive⟩)).safe
        | error _ => exact rollbackOrManual_spec hg2

theorem Going.loaded {t} (hop : d.journal.operation = some op) (hphase : op.status.phase.committed = true)
    (hinstalled : d.journal.installed = op.old) (hserves : d.Serves op) (ht : d.taken = t) : Going op t d.journal d :=
  ⟨⟨op, hop, .refl op, hphase⟩, ⟨op, by rw [← hop], .refl op⟩, hinstalled, hserves, ht⟩

theorem publish_loaded : Makes sha publish (fun _ _ _ => True) d.journal d :=
  (publish_spec d.journal.tells_status).safe

theorem finish_early (hop : d.journal.operation = some op)
    (hpre : op.status.phase.precommit = true) (hserves : d.Serves op) (hp : p = .failed ∨ p = .aborted) :
    Makes sha (finish p reason) (fun out m' d' => out = .ok () → d'.journal = m') d.journal d := by
  refine makes_clock fun now => ?_
  refine sustains_modify ?_
  let op' : Operation := { op with
    status := { op.status with phase := p, reason := reason, updatedAtMs := now }, pendingLaunch := none }
  have hfinish : d.journal.finish p reason now = d.journal.settled op' := by
    unfold Journal.finish
    rw [hop]
    rfl
  rw [hfinish]
  have hsave : Saves sha d (d.journal.settled op') :=
    .finish op op' hop hserves ⟨rfl, rfl, rfl⟩ (.early hpre hp)
  exact (persist_spec hsave).mono fun out m' d' hpost hok => hpost.memory ▸ hpost.journal_of_ok hok

theorem recoverJournal_spec (h : Anchored sha d) (ht : d.taken = none) :
    Makes sha (recoverJournal boot) (fun _ _ _ => True) d.journal d := by
  have hserves : ∀ op : Operation, d.Serves op := by
    intro op q hq
    rw [ht] at hq
    cases hq
  refine sustains_memory ?_
  split
  · refine makes_hash ?_ fun _ => trivial
    exact makes_require (fun _ => publish_loaded) fun _ => trivial
  · rename_i op hop
    split
    · refine makes_hash ?_ fun _ => trivial
      exact makes_require (fun _ => publish_loaded) fun _ => trivial
    · rename_i hterminal
      split
      · exact publish_loaded
      · split
        · rename_i hpre
          exact (finish_early hop hpre (hserves op) (.inl rfl)).safe
        · rename_i hpre
          have hphase : op.status.phase.committed = true := by simp [Phase.committed, hterminal, hpre]
          have hgoing : Going op none d.journal d :=
            .loaded hop hphase (h.old op hop (.inr (by simp [Phase.holds, hphase]))) (hserves op) ht
          split
          · exact rollbackOrManual_spec hgoing
          · exact recoverRunning_spec hgoing hop

theorem loadJournal_ok {journal} (h : (perform sha x .loadJournal d).1 = .ok journal) : journal = d.journal := by
  obtain ⟨_, _, h⟩ := bind_eq_ok.mp h
  obtain ⟨_, _, h⟩ := map_eq_ok.mp h
  exact h.symm

theorem recover_spec (h : Anchored sha d) (ht : d.taken = none) :
    Makes sha (recover boot) (fun _ _ _ => True) () d := by
  refine makes_look rfl (fun _ _ _ => ?_) fun _ => trivial
  refine makes_look rfl (fun journal x hx => ?_) fun _ => trivial
  have hj := loadJournal_ok hx
  subst hj
  refine sustains_within (sustains_memory ?_)
  split
  · refine makes_hash ?_ fun _ => trivial
    exact makes_require (fun _ => publish_loaded) fun _ => trivial
  · exact recoverJournal_spec h ht

end Recover

end Parins.Update
