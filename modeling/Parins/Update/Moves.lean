/-
Everything that one command of the helper may do to the disk, in terms of the
journal and the programs that it speaks of. The invariants of the updater are
kept by these moves; that each program makes only such moves is shown apart.
-/
import Parins.Update.Executor

namespace Parins.Update
open Lib

variable {sha : Bytes → Text}

/-- One operation at two times: its name, and the program that it replaces. -/
structure Operation.Same (a b : Operation) : Prop where
  id : b.status.operationId = a.status.operationId
  nonce : b.status.phaseNonce = a.status.phaseNonce
  old : b.old = a.old

/-- From the commit on the candidate is fixed too. -/
structure Operation.Alike (a b : Operation) : Prop extends Operation.Same a b where
  candidate : b.candidate = a.candidate

/-- The operation needs the old program's copy. -/
def Phase.holds (p : Phase) : Bool := p.committed || p == .manualRequired

/-- The journal neither holds the operation nor stores a terminal of it. -/
structure Journal.Lacks (j : Journal) (id : Text) : Prop where
  operation : ∀ op, j.operation = some op → op.status.operationId ≠ id
  last : ∀ last, j.lastOperation = some last → last.operationId = id → last.phase.terminal = false

/-- A request that was taken is for the operation. A recovery takes none. -/
def Disk.Serves (d : Disk) (op : Operation) : Prop :=
  ∀ q, d.taken = some q → q.operationId = op.status.operationId ∧ q.phaseNonce = op.status.phaseNonce

/-- The old program's copy is in the operation's directory. -/
def Disk.Backup (sha : Bytes → Text) (d : Disk) (op : Operation) : Prop :=
  ∃ copy, d.file op.status.operationId .previous = some copy ∧ sha copy = op.old.sha256

/-- A step of the operation that does not end it. -/
inductive Advances (sha : Bytes → Text) (d : Disk) (op op' : Operation) : Prop
  | prepare (before : op.status.phase.precommit = true) (after : op'.status.phase.precommit = true)
  | commit (q : Inbox) (taken : d.taken = some q) (commits : q.request.isCommit = true)
      (before : op.status.phase = .staged) (after : op'.status.phase = .committing)
      (candidate : op'.candidate = op.candidate)
  | proceed (before : op.status.phase.committed = true) (after : op'.status.phase.committed = true)
      (candidate : op'.candidate = op.candidate)
      (restored : op'.status.phase = .awaitingReadiness → sha d.live = op.old.sha256)

/-- A step that ends the operation with the old program. -/
inductive Ends (sha : Bytes → Text) (d : Disk) (op op' : Operation) : Prop
  | early (before : op.status.phase.precommit = true)
      (after : op'.status.phase = .failed ∨ op'.status.phase = .aborted)
  | rolledBack (before : op.status.phase.committed = true) (after : op'.status.phase = .rolledBack)
      (restored : sha d.live = op.old.sha256)
  | manual (before : op.status.phase.committed = true) (after : op'.status.phase = .manualRequired)
      (candidate : op'.candidate = op.candidate)

/-- The journal with an operation that ended. -/
def Journal.settled (j : Journal) (op : Operation) : Journal :=
  { j with operation := some op, lastOperation := Journal.lastAfter j.lastOperation op.status }

/-- What may be written over the journal. -/
inductive Saves (sha : Bytes → Text) (d : Disk) : Journal → Prop
  /-- A terminal for an operation that the journal lacks. -/
  | fence (q : Inbox) (status : OperationStatus) (taken : d.taken = some q)
      (unknown : d.journal.Lacks q.operationId) (isFor : status.isFor q.operationId q.phaseNonce = true)
      (terminal : status.phase.terminal = true) : Saves sha d { d.journal with lastOperation := some status }
  /-- A Stage begins an operation that the journal lacks. -/
  | start (q : Inbox) (op : Operation) (taken : d.taken = some q) (stages : q.request.isStage = true)
      (unknown : d.journal.Lacks q.operationId) (isFor : op.status.isFor q.operationId q.phaseNonce = true)
      (free : ∀ o, d.journal.operation = some o →
        o.status.phase.terminal = true ∧ o.status.phase ≠ .manualRequired)
      (accepted : op.status.phase = .accepted) (old : op.old = d.journal.installed) :
      Saves sha d { d.journal with operation := some op, lastOperation := d.journal.operation.map (·.status) }
  | advance (op op' : Operation) (holds : d.journal.operation = some op) (serves : d.Serves op)
      (same : op.Same op') (advances : Advances sha d op op') : Saves sha d { d.journal with operation := some op' }
  | finish (op op' : Operation) (holds : d.journal.operation = some op) (serves : d.Serves op)
      (same : op.Same op') (ends : Ends sha d op op') : Saves sha d (d.journal.settled op')
  /-- The new identity and the success are one write, after the candidate's launch proved ready. -/
  | succeed (op op' : Operation) (launch : PendingLaunch) (holds : d.journal.operation = some op)
      (serves : d.Serves op) (same : op.Alike op') (before : op.status.phase = .validating)
      (pending : op.pendingLaunch = some launch) (isCandidate : launch.identity = op.candidate)
      (proved : launch ∈ d.proved) (live : sha d.live = op.candidate.sha256)
      (after : op'.status.phase = .succeeded) :
      Saves sha d ({ d.journal with installed := op.candidate }.settled op')
  /-- A recovery whose rollback ended, and that then met an error, calls for the administrator. -/
  | manual (op op' : Operation) (holds : d.journal.operation = some op) (recovers : d.taken = none)
      (shaken : d.mark = .shaken) (same : op.Alike op') (installed : d.journal.installed = op.old)
      (before : op.status.phase = .rolledBack ∨ op.status.phase = .manualRequired)
      (after : op'.status.phase = .manualRequired) : Saves sha d (d.journal.settled op')

/-- A status tells of the journal's identity and of terminals that the journal stores. -/
structure Journal.Tells (j : Journal) (s : PublicStatus) : Prop where
  installed : s.installed = j.installed
  terminals : ∀ t, s.lastOperation = some t ∨ s.additionalTerminal = some t → t.phase.terminal = true →
    (∃ op, j.operation = some op ∧ op.status = t) ∨ j.lastOperation = some t

/-- One command. -/
inductive Moves (sha : Bytes → Text) (d d' : Disk) : Prop
  | quiet (journal : d'.journal = d.journal) (status : d'.status = d.status) (live : d'.live = d.live)
      (taken : d'.taken = d.taken)
      (copies : ∀ op, d.journal.operation = some op → op.status.phase.holds = true →
        d'.file op.status.operationId .previous = d.file op.status.operationId .previous)
  | take (q : Inbox) (first : d.taken = none) (h : d' = { d with taken := some q })
  | save (j : Journal) (saves : Saves sha d j) (mark : Mark) (h : d' = { d with journal := j, mark := mark })
  | publish (s : PublicStatus) (tells : d.journal.Tells s) (mark : Mark)
      (h : d' = { d with status := s, mark := mark })
  /-- The candidate goes live while its commit has stopped the old program. -/
  | install (op : Operation) (q : Inbox) (holds : d.journal.operation = some op) (serves : d.Serves op)
      (taken : d.taken = some q) (commits : q.request.isCommit = true) (stopping : op.status.phase = .stopping)
      (backup : d.Backup sha op) (content : sha d'.live = op.candidate.sha256) (journal : d'.journal = d.journal)
      (status : d'.status = d.status) (kept : d'.taken = d.taken)
      (copy : d'.file op.status.operationId .previous = d.file op.status.operationId .previous)
  | restore (op : Operation) (holds : d.journal.operation = some op) (committed : op.status.phase.committed = true)
      (content : sha d'.live = op.old.sha256) (journal : d'.journal = d.journal) (status : d'.status = d.status)
      (kept : d'.taken = d.taken)
      (copy : d'.file op.status.operationId .previous = d.file op.status.operationId .previous)

/-- The live program is the one that the journal answers for. -/
structure Anchored (sha : Bytes → Text) (d : Disk) : Prop where
  settled : (∀ op, d.journal.operation = some op → op.status.phase.precommit = true ∨
    op.status.phase.terminal = true ∧ op.status.phase ≠ .manualRequired) → sha d.live = d.journal.installed.sha256
  old : ∀ op, d.journal.operation = some op → op.status.phase.precommit = true ∨ op.status.phase.holds = true →
    d.journal.installed = op.old
  live : ∀ op, d.journal.operation = some op → op.status.phase.holds = true →
    sha d.live = op.old.sha256 ∨ sha d.live = op.candidate.sha256 ∧ d.Backup sha op
  ready : ∀ op, d.journal.operation = some op → op.status.phase = .awaitingReadiness → sha d.live = op.old.sha256

/-! ### Files -/

theorem Folder.get_set (f : Folder) (name name' content) :
    (f.set name content).get name' = if name' = name then content else f.get name' := by
  cases name <;> cases name' <;> rfl

namespace Disk

variable {d : Disk} {id id' : Text} {name name' : FileName} {content : Option Bytes}

theorem file_putFile : (d.putFile id name content).file id' name' =
    if id' = id ∧ name' = name then (d.staging id).bind fun _ => content else d.file id' name' := by
  unfold file putFile
  by_cases hid : id' = id
  · subst hid
    by_cases hname : name' = name
    · cases h : d.staging id' <;> simp [hname, Folder.get_set]
    · cases h : d.staging id' <;> simp [hname, Folder.get_set]
  · simp [hid, Function.update_of_ne]

theorem file_putFile_of_ne (h : name' ≠ name) : (d.putFile id name content).file id' name' = d.file id' name' := by
  rw [file_putFile, if_neg fun heq => h heq.2]

end Disk

theorem Moves.refl (d) : Moves sha d d := .quiet rfl rfl rfl rfl fun _ _ _ => rfl

end Parins.Update
