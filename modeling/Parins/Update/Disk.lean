/-
What the helper acts on: its journal, the public status, the live program and
the staging directories. Every access is a command whose outcome the environment
chooses: it is done, it fails and leaves no trace, or it fails late, after it
took effect.
-/
import Parins.Lib.Program
import Parins.Update.Journal
import Mathlib.Logic.Function.Basic

namespace Parins.Update
open Lib

inductive FileName
  | candidatePart
  | candidate
  | previous
  | rollback
deriving DecidableEq

structure Folder where
  candidatePart : Option Bytes := none
  candidate : Option Bytes := none
  previous : Option Bytes := none
  rollback : Option Bytes := none
deriving DecidableEq

namespace Folder

def get (f : Folder) : FileName → Option Bytes
  | .candidatePart => f.candidatePart
  | .candidate => f.candidate
  | .previous => f.previous
  | .rollback => f.rollback

def set (f : Folder) (name : FileName) (content : Option Bytes) : Folder :=
  match name with
  | .candidatePart => { f with candidatePart := content }
  | .candidate => { f with candidate := content }
  | .previous => { f with previous := content }
  | .rollback => { f with rollback := content }

end Folder

/-- How far an execution is with a rollback of its own: it has stored that it starts the old program,
and then a write failed although the journal on disk holds the terminal. -/
inductive Mark
  | none
  | restarts
  | shaken
deriving DecidableEq

def Mark.stored (k : Mark) (j : Journal) : Mark := if k = .none ∧ j.restarts = true then .restarts else k

def Mark.failed (k : Mark) (j : Journal) : Mark := if k = .restarts ∧ j.ended = true then .shaken else k

/-- `taken`, `proved` and `mark` are for the statements, and nothing reads them: the request that
this execution took, the launches that proved readiness in it, and its own rollback. -/
structure Disk where
  journal : Journal
  status : PublicStatus
  live : Bytes
  staging : Text → Option Folder
  taken : Option Inbox
  proved : List PendingLaunch
  mark : Mark

namespace Disk

def file (d : Disk) (id : Text) (name : FileName) : Option Bytes := (d.staging id).bind (·.get name)

def putFile (d : Disk) (id : Text) (name : FileName) (content : Option Bytes) : Disk :=
  { d with staging := Function.update d.staging id ((d.staging id).map (·.set name content)) }

end Disk

inductive Action
  | start
  | stop
deriving DecidableEq

structure ManifestDocument where
  manifest : Manifest
  sha256 : Text

inductive Cmd
  | stateDirectory
  | readInbox
  | removeInbox
  | units
  | loadJournal
  | saveJournal (journal : Journal)
  | publish (status : PublicStatus)
  | clock
  | nonce
  | actualHash
  | service
  | control (action : Action)
  | managerRunning
  | openDir (id : Text)
  | createDir (id : Text)
  | removeDir (id : Text)
  | removeFile (id : Text) (name : FileName)
  | createFile (id : Text) (name : FileName)
  | hashFile (id : Text) (name : FileName)
  | space
  | manifest (tag : Text)
  | progress
  | download (id : Text) (download : DownloadTuple)
  | validateElf (id : Text)
  | seal (id : Text)
  | promote (id : Text)
  | openLive
  | copyLive (id : Text)
  | copyPrevious (id : Text)
  | install (id : Text) (name : FileName)
  | wait (pending : PendingLaunch) (configRevision : Nat)

@[reducible] def Ans : Cmd → Type
  | .readInbox => Inbox
  | .loadJournal => Journal
  | .clock => Nat
  | .nonce => Text
  | .actualHash => Text
  | .service => Service
  | .managerRunning => Bool
  | .hashFile .. => Text
  | .manifest _ => ManifestDocument
  | .progress => List (Nat × Bool)
  | _ => Unit

inductive Fate
  | done
  | failed (error : Error)
  | late (error : Error)

structure Outcome where
  fate : Fate := .done
  inbox : Option Inbox := none
  clock : Nat := 0
  nonce : Text := []
  service : Service := []
  running : Bool := true
  document : ManifestDocument := ⟨⟨0, [], [], [], [], 0, [], 0, 0, 0, 0, 0, .manual, []⟩, []⟩
  progress : List (Nat × Bool) := []
  /-- The bytes that came in; of a copy or a download that fails, the bytes that it left. -/
  bytes : Bytes := []
  ticks : List Tick := []

namespace Outcome

def report (x : Outcome) (a : α) : Except Error α :=
  match x.fate with
  | .done => .ok a
  | .failed e => .error e
  | .late e => .error e

def settle (x : Outcome) (d d' : Disk) : Except Error Unit × Disk :=
  match x.fate with
  | .done => (.ok (), d')
  | .failed e => (.error e, d)
  | .late e => (.error e, d')

end Outcome

def missing : Error := .message (ascii "No such file or directory")
def exists_ : Error := .message (ascii "File exists")

/-- One command. `sha` is SHA-256, in hexadecimal. -/
def perform (sha : Bytes → Text) (x : Outcome) : (c : Cmd) → Disk → Except Error (Ans c) × Disk
  | .stateDirectory, d => (x.report (), d)
  | .readInbox, d =>
    match x.report x.inbox with
    | .ok (some q) => (.ok q, { d with taken := some q })
    | .ok none => (.error missing, d)
    | .error e => (.error e, d)
  | .removeInbox, d => (x.report (), d)
  | .units, d => (x.report (), d)
  | .loadJournal, d => ((x.report ()).bind fun _ => d.journal.check.map fun _ => d.journal, d)
  | .saveJournal j, d =>
    match x.fate with
    | .done => (.ok (), { d with journal := j, mark := d.mark.stored j })
    | .failed e => (.error e, d)
    | .late e => (.error e, { d with journal := j, mark := d.mark.failed j })
  | .publish s, d =>
    match x.fate with
    | .done => (.ok (), { d with status := s })
    | .failed e => (.error e, { d with mark := d.mark.failed d.journal })
    | .late e => (.error e, { d with status := s, mark := d.mark.failed d.journal })
  | .clock, d => (.ok x.clock, d)
  | .nonce, d => (.ok x.nonce, d)
  | .actualHash, d => (x.report (sha d.live), d)
  | .service, d => (x.report x.service, d)
  | .control _, d => (x.report (), d)
  | .managerRunning, d => (.ok x.running, d)
  | .openDir id, d => (if (d.staging id).isSome then x.report () else .error missing, d)
  | .createDir id, d =>
    x.settle d { d with staging := Function.update d.staging id (some ((d.staging id).getD {})) }
  | .removeDir id, d =>
    if d.staging id = some {} then x.settle d { d with staging := Function.update d.staging id none }
    else (.error (.message (ascii "Directory not empty")), d)
  | .removeFile id name, d => x.settle d (d.putFile id name none)
  | .createFile id name, d =>
    if (d.staging id).isNone then (.error missing, d)
    else if (d.file id name).isSome then (.error exists_, d)
    else x.settle d (d.putFile id name (some []))
  | .hashFile id name, d =>
    match d.file id name with
    | some content => (x.report (sha content), d)
    | none => (.error missing, d)
  | .space, d => (x.report (), d)
  | .manifest _, d => (x.report x.document, d)
  | .progress, d => (.ok x.progress, d)
  | .download id tuple, d =>
    ((x.report ()).bind fun _ =>
        if x.bytes.length = tuple.size ∧ sha x.bytes = tuple.sha256 then .ok ()
        else .error (.reader (ascii "verification_failed")),
      d.putFile id .candidatePart (some x.bytes))
  | .validateElf _, d => (x.report (), d)
  | .seal _, d => (x.report (), d)
  | .promote id, d =>
    match d.file id .candidatePart with
    | some content => x.settle d ((d.putFile id .candidatePart none).putFile id .candidate (some content))
    | none => (.error missing, d)
  | .openLive, d => (x.report (), d)
  | .copyLive id, d => ((x.report ()), d.putFile id .previous (some ((x.report d.live).toOption.getD x.bytes)))
  | .copyPrevious id, d =>
    match d.file id .previous with
    | some content =>
      ((x.report ()), d.putFile id .rollback (some ((x.report content).toOption.getD x.bytes)))
    | none => (.error missing, d)
  | .install id name, d =>
    match d.file id name with
    | some content => x.settle d { d.putFile id name none with live := content }
    | none => (.error missing, d)
  | .wait pending revision, d =>
    match waitLaunch pending revision {} [] {} x.ticks with
    | .ok () => (.ok (), { d with proved := pending :: d.proved })
    | .error e => (.error e, d)

def effect (sha : Bytes → Text) (c : Cmd) (d : Disk) (r : Except Error (Ans c)) (d' : Disk) : Prop :=
  ∃ x, perform sha x c d = (r, d')

end Parins.Update
