import ForgeOpsTracker.Lib.Runs
import ForgeOpsTracker.Client
import Mathlib.Data.List.Sort

/-! The crash store: one directory of pending reports, the threads of any number of
processes that write reports into it, and the uploads that list, send and delete
them.

A call of `forgeops_crash_store_write` is several steps, and so is a pass of
`forgeops_upload_pending_reports`: anything may happen between two of them. A path
leads to a file, and an open stream keeps writing to its file even after the path is
gone. -/

namespace ForgeOps.CrashStore
open Client

def maxPending : Nat := 20
def maxAgeSeconds : Nat := 7 * 24 * 60 * 60

/-! ## The directory -/

/-- `writer` is history: the call that last opened the file. -/
structure File where
  content : Bytes
  modifiedAt : Nat
  writer : Nat
  deriving DecidableEq, Repr

/-- Files by number, and the paths that lead to them. -/
structure Disk where
  files : List File
  entries : List (Bytes × Nat)
  deriving DecidableEq, Repr

namespace Disk

def lookup (disk : Disk) (path : Bytes) : Option Nat :=
  (disk.entries.find? fun e => e.1 = path).map Prod.snd

/-- `fopen(path, "w")`: the file there is emptied, or a new one is made. -/
def openForWriting (disk : Disk) (path : Bytes) (now writer : Nat) : Disk × Nat :=
  match disk.lookup path with
  | some file => ({ disk with files := disk.files.set file ⟨[], now, writer⟩ }, file)
  | none =>
    ({ files := disk.files ++ [⟨[], now, writer⟩]
       entries := disk.entries ++ [(path, disk.files.length)] }, disk.files.length)

/-- Data written at an offset of a content, with zeros up to it where it is shorter. -/
def writeAt (content : Bytes) (offset : Nat) (data : Bytes) : Bytes :=
  content.take offset ++ List.replicate (offset - content.length) 0 ++ data ++
    content.drop (offset + data.length)

def store (disk : Disk) (file offset : Nat) (data : Bytes) (now : Nat) : Disk :=
  if data = [] then disk
  else { disk with files := disk.files.modify file fun f =>
    { f with content := writeAt f.content offset data, modifiedAt := now } }

def remove (disk : Disk) (path : Bytes) : Disk :=
  { disk with entries := disk.entries.filter fun e => e.1 ≠ path }

end Disk

/-! ## Listing -/

/-- `pending_t` -/
structure Pending where
  path : Bytes
  modifiedAt : Nat
  deriving DecidableEq, Repr

/-- `compare_pending(a, b) <= 0` -/
def Pending.le (a b : Pending) : Prop :=
  a.modifiedAt < b.modifiedAt ∨ (a.modifiedAt = b.modifiedAt ∧ a.path ≤ b.path)

instance : DecidableRel Pending.le := fun _ _ => inferInstanceAs (Decidable (_ ∨ _))

/-- `modified_at != 0 && modified_at < cutoff` -/
def tooOld (now modifiedAt : Nat) : Bool := modifiedAt ≠ 0 && modifiedAt + maxAgeSeconds < now

def isReport (name : Bytes) : Bool :=
  hasSuffix name (ascii ".json") || hasSuffix name (ascii ".txt")

/-- What `forgeops_crash_store_pending_paths` deletes, and what it returns. -/
structure Listing where
  deleted : List Bytes
  listed : List Bytes
  deriving DecidableEq, Repr

/-- `forgeops_crash_store_pending_paths` on the reports found, in the order
`readdir` gave them. -/
def pendingPaths (found : List Pending) (now : Nat) : Listing :=
  let old := found.filter fun p => tooOld now p.modifiedAt
  let kept := (found.filter fun p => ¬ tooOld now p.modifiedAt).insertionSort Pending.le
  let excess := kept.length - maxPending
  { deleted := (old ++ kept.take excess).map Pending.path
    listed := (kept.drop excess).map Pending.path }

/-! ## Calls and passes -/

/-- `%s/event-%ld-%ld.json` -/
def eventPath (directory : Bytes) (second counter : Nat) : Bytes :=
  directory ++ ascii "/event-" ++ decimal second ++ ascii "-" ++ decimal counter ++ ascii ".json"

/-- A file a call has open or had open. `overwrote` is history: whether its path was
there already. -/
structure Opened where
  second : Nat
  counter : Nat
  file : Nat
  overwrote : Bool
  deriving DecidableEq, Repr

/-- How far a call has come. The clock and the counter are read, the counter is stored
back, the file is opened, written and closed; of the `accepted` bytes the stream took,
`reached` are in the file. -/
inductive Phase
  | entered
  | stamped (second counter : Nat)
  | named (second counter : Nat)
  | opened (o : Opened)
  | written (o : Opened) (accepted reached : Nat)
  | returned (result : Int) (o : Option Opened)
  deriving DecidableEq, Repr

namespace Phase

def file : Phase → Option Opened
  | .opened o | .written o _ _ => some o
  | .returned _ o => o
  | _ => none

def result : Phase → Option Int
  | .returned result _ => some result
  | _ => none

/-- The second and the counter a path is about to be made of. -/
def stamp : Phase → Option (Nat × Nat)
  | .named second counter => some (second, counter)
  | _ => none

end Phase

structure Call where
  process : Nat
  payload : Bytes
  phase : Phase
  deriving DecidableEq, Repr

/-- An upload pass: the paths it has yet to delete, the ones it has yet to send, and
the payload it has read of the first of them. -/
structure Pass where
  doomed : List Bytes
  paths : List Bytes
  payload : Option Bytes
  stopAtFirstFailure : Bool
  deriving DecidableEq, Repr

/-- `counters` holds each process's static counter. -/
structure State where
  directory : Bytes
  counters : Nat → Nat
  calls : List Call
  disk : Disk
  passes : List Pass

def initial (directory : Bytes) : State := ⟨directory, fun _ => 0, [], ⟨[], []⟩, []⟩

/-- The reports among some entries of the directory, with their times. -/
def found (disk : Disk) (entries : List (Bytes × Nat)) : List Pending :=
  (entries.filter fun e => isReport e.1).map fun e =>
    ⟨e.1, ((disk.files[e.2]?).map File.modifiedAt).getD 0⟩

/-! ## Steps -/

inductive Action
  | enter (process : Nat) (payload : Bytes) (directoryMade : Bool)
  | stamp (i now : Nat)
  | bump (i : Nat)
  | openFile (i : Nat) (opens : Bool) (now : Nat)
  | write (i accepted reached now : Nat)
  | close (i reached now : Nat)
  | list (entries : List (Bytes × Nat)) (now : Nat) (stopAtFirstFailure : Bool)
  | prune (k : Nat)
  | read (k : Nat) (readable : Bool)
  | settle (k : Nat) (status : Int)
  deriving DecidableEq, Repr

def State.setPhase (s : State) (i : Nat) (phase : Phase) : State :=
  { s with calls := s.calls.modify i fun c => { c with phase := phase } }

def State.setPass (s : State) (k : Nat) (p : Pass) : State :=
  { s with passes := s.passes.set k p }

/-- The file opened for call `i`, under the path its second and counter make. -/
def State.openFor (s : State) (i second counter now : Nat) : State :=
  let path := eventPath s.directory second counter
  let opened := s.disk.openForWriting path now i
  { s.setPhase i (.opened ⟨second, counter, opened.2, (s.disk.lookup path).isSome⟩) with
    disk := opened.1 }

/-- The steps of `forgeops_crash_store_write`, for call `i` as it stands. -/
def stepCall (s : State) (i : Nat) (c : Call) : Action → Option State
  | .stamp _ now =>
    match c.phase with
    | .entered => some (s.setPhase i (.stamped now (s.counters c.process)))
    | _ => none
  | .bump _ =>
    match c.phase with
    | .stamped second counter =>
      some { s.setPhase i (.named second counter) with
        counters := Function.update s.counters c.process (counter + 1) }
    | _ => none
  | .openFile _ opens now =>
    match c.phase with
    | .named second counter =>
      if opens then some (s.openFor i second counter now)
      else some (s.setPhase i (.returned (-1) none))
    | _ => none
  | .write _ accepted reached now =>
    match c.phase with
    | .opened o =>
      if reached ≤ accepted ∧ accepted ≤ c.payload.length then
        some { s.setPhase i (.written o accepted reached) with
          disk := s.disk.store o.file 0 (c.payload.take reached) now }
      else none
    | _ => none
  | .close _ reached' now =>
    match c.phase with
    | .written o accepted reached =>
      if reached ≤ reached' ∧ reached' ≤ accepted then
        let result : Int := if accepted = c.payload.length then 0 else -1
        some { s.setPhase i (.returned result (some o)) with
          disk := s.disk.store o.file reached ((c.payload.take reached').drop reached) now }
      else none
    | _ => none
  | _ => none

/-- The steps of `forgeops_upload_pending_reports_until_failure`, for pass `k` as it
stands. -/
def stepPass (s : State) (k : Nat) (p : Pass) : Action → Option State
  | .prune _ =>
    match p.doomed with
    | [] => none
    | path :: doomed =>
      some { s.setPass k { p with doomed := doomed } with disk := s.disk.remove path }
  | .read _ readable =>
    match p.doomed, p.paths, p.payload with
    | [], path :: paths, none =>
      match s.disk.lookup path with
      | some file =>
        if readable then
          let payload := ((s.disk.files[file]?).map File.content).getD []
          some (s.setPass k { p with payload := some payload })
        else
          some { s.setPass k { p with paths := paths } with disk := s.disk.remove path }
      | none => some (s.setPass k { p with paths := paths })
    | _, _, _ => none
  | .settle _ status =>
    match p.paths, p.payload with
    | path :: paths, some _ =>
      if deliveryOutcomeForStatus status = .failed then
        let rest := if p.stopAtFirstFailure then [] else paths
        some (s.setPass k { p with paths := rest, payload := none })
      else
        some { s.setPass k { p with paths := paths, payload := none } with
          disk := s.disk.remove path }
    | _, _ => none
  | _ => none

def step (s : State) (a : Action) : Option State :=
  match a with
  | .enter process payload directoryMade =>
    let phase := if directoryMade then .entered else .returned (-1) none
    some { s with calls := s.calls ++ [⟨process, payload, phase⟩] }
  | .stamp i _ | .bump i | .openFile i _ _ | .write i _ _ _ | .close i _ _ =>
    (s.calls[i]?).bind fun c => stepCall s i c a
  | .list entries now stopAtFirstFailure =>
    if entries.Perm s.disk.entries then
      let listing := pendingPaths (found s.disk entries) now
      some { s with passes := s.passes ++
        [⟨listing.deleted, listing.listed, none, stopAtFirstFailure⟩] }
    else none
  | .prune k | .read k _ | .settle k _ => (s.passes[k]?).bind fun p => stepPass s k p a

/-! ## What a step does -/

/-- Everything one step can do to the calls and the directory. -/
inductive Effect (s : State) (a : Action) : State → Prop
  | entered (c : Call) (hfile : c.phase.file = none) (hresult : c.phase.result ≠ some 0) :
      Effect s a { s with calls := s.calls ++ [c] }
  | moved (i : Nat) (c : Call) (phase : Phase) (counters : Nat → Nat) (hc : s.calls[i]? = some c)
      (hno : c.phase.file = none) (hfile : phase.file = none) (hresult : phase.result ≠ some 0) :
      Effect s a { s.setPhase i phase with counters := counters }
  | opened (i : Nat) (c : Call) (second counter now : Nat) (ha : a = .openFile i true now)
      (hc : s.calls[i]? = some c) (hphase : c.phase = .named second counter) :
      Effect s a (s.openFor i second counter now)
  | stored (i : Nat) (c : Call) (o : Opened) (phase : Phase) (offset : Nat) (data : Bytes)
      (now : Nat) (hc : s.calls[i]? = some c) (hold : c.phase.file = some o)
      (hfile : phase.file = some o) (hdata : data.length ≤ c.payload.length)
      (hwritten : ∀ p accepted reached, phase = .written p accepted reached →
        accepted ≤ c.payload.length)
      (hresult : phase.result = some (-1) → ∃ accepted reached,
        c.phase = .written o accepted reached ∧ accepted ≠ c.payload.length) :
      Effect s a { s.setPhase i phase with disk := s.disk.store o.file offset data now }
  | passed (disk : Disk) (passes : List Pass)
      (hdisk : disk = s.disk ∨ ∃ path, disk = s.disk.remove path) :
      Effect s a { s with disk := disk, passes := passes }

theorem stepCall_effect {s t : State} {i : Nat} {c : Call} {a : Action}
    (hc : s.calls[i]? = some c) (ha : ∀ j now, a = .openFile j true now → j = i)
    (h : stepCall s i c a = some t) : Effect s a t := by
  cases a with
  | stamp _ now =>
    simp only [stepCall] at h
    split at h
    · rename_i hphase
      obtain rfl := Option.some.inj h
      exact .moved i c _ s.counters hc (by rw [hphase]; rfl) rfl (by simp [Phase.result])
    · cases h
  | bump _ =>
    simp only [stepCall] at h
    split at h
    · rename_i hphase
      obtain rfl := Option.some.inj h
      exact .moved i c _ _ hc (by rw [hphase]; rfl) rfl (by simp [Phase.result])
    · cases h
  | openFile j opens now =>
    simp only [stepCall] at h
    split at h
    · rename_i second counter hphase
      split at h
      · rename_i hopens
        obtain rfl := Option.some.inj h
        obtain rfl := ha j now (by rw [hopens])
        exact .opened j c second counter now (by rw [hopens]) hc hphase
      · obtain rfl := Option.some.inj h
        exact .moved i c _ s.counters hc (by rw [hphase]; rfl) rfl (by simp [Phase.result])
    · cases h
  | write _ accepted reached now =>
    simp only [stepCall] at h
    split at h
    · rename_i o hphase
      split at h
      · rename_i hle
        obtain rfl := Option.some.inj h
        refine .stored i c o _ 0 _ now hc (by rw [hphase]; rfl) rfl (List.length_take_le' ..) ?_
          (by simp [Phase.result])
        rintro _ _ _ ⟨⟩
        exact hle.2
      · cases h
    · cases h
  | close _ reached' now =>
    simp only [stepCall] at h
    split at h
    · rename_i o accepted reached hphase
      split at h
      · obtain rfl := Option.some.inj h
        refine .stored i c o _ reached _ now hc (by rw [hphase]; rfl) rfl ?_ (by rintro _ _ _ ⟨⟩) ?_
        · simp only [List.length_drop, List.length_take]
          omega
        · intro hresult
          refine ⟨accepted, reached, hphase, fun heq => ?_⟩
          simp [Phase.result, heq] at hresult
      · cases h
    · cases h
  | _ => cases h

theorem stepPass_effect {s t : State} {k : Nat} {p : Pass} {a : Action}
    (h : stepPass s k p a = some t) : Effect s a t := by
  cases a with
  | prune _ =>
    simp only [stepPass] at h
    split at h
    · cases h
    · obtain rfl := Option.some.inj h
      exact .passed _ _ (.inr ⟨_, rfl⟩)
  | read _ readable =>
    simp only [stepPass] at h
    split at h
    · split at h
      · split at h
        · obtain rfl := Option.some.inj h
          exact .passed _ _ (.inl rfl)
        · obtain rfl := Option.some.inj h
          exact .passed _ _ (.inr ⟨_, rfl⟩)
      · obtain rfl := Option.some.inj h
        exact .passed _ _ (.inl rfl)
    · cases h
  | settle _ status =>
    simp only [stepPass] at h
    split at h
    · split at h
      · obtain rfl := Option.some.inj h
        exact .passed _ _ (.inl rfl)
      · obtain rfl := Option.some.inj h
        exact .passed _ _ (.inr ⟨_, rfl⟩)
    · cases h
  | _ => cases h

theorem step_effect {s t : State} {a : Action} (h : step s a = some t) : Effect s a t := by
  cases a with
  | enter process payload directoryMade =>
    obtain rfl := Option.some.inj h
    refine .entered _ ?_ ?_ <;> cases directoryMade <;> simp [Phase.file, Phase.result]
  | list entries now stopAtFirstFailure =>
    simp only [step] at h
    split at h
    · obtain rfl := Option.some.inj h
      exact .passed _ _ (.inl rfl)
    · cases h
  | stamp i _ | bump i | openFile i _ _ | write i _ _ _ | close i _ _ =>
    obtain ⟨c, hc, hstep⟩ := Option.bind_eq_some_iff.mp h
    refine stepCall_effect hc ?_ hstep
    rintro j n ⟨⟩
    try rfl
  | prune k | read k _ | settle k _ =>
    obtain ⟨p, -, hstep⟩ := Option.bind_eq_some_iff.mp h
    exact stepPass_effect hstep

end ForgeOps.CrashStore
