import ForgeOpsTracker.BreadcrumbTrail
import ForgeOpsTracker.Changes
import ForgeOpsTracker.EventBuilder
import ForgeOpsTracker.Tracker

/-! The public calls (`forgeops_tracker.c`), made by any number of threads in any order. What a
thread has of its own is its user, its breadcrumbs and its open trace; everything else is shared.
Each call comes with the configuration as it stands then. Allocations succeed, and a change that is
built is passed on, whether or not its queue has room. -/

namespace ForgeOps.Sdk

/-- The pairs of a user. -/
abbrev User := List (Option Bytes × Option Bytes)

/-- `users` and `trails` are what each thread has in `current_user` and `thread_ring`; its trace is
in `tracker`. `changes` are the bodies passed to `forgeops_changes_enqueue`, and `written` the
payloads passed to `forgeops_crash_store_write`. -/
structure State where
  tracker : Tracker.State
  users : Nat → User
  trails : Nat → Breadcrumbs.Trail
  changes : List Bytes
  written : List Bytes

def initial : State where
  tracker := Tracker.initial
  users _ := []
  trails _ := none
  changes := []
  written := []

/-- What `forgeops_tracker_capture_error_with_sql` is called with. -/
structure Capture where
  exceptionClass : Option Bytes := none
  message : Option Bytes := none
  sql : Option Bytes := none
  context : List (Option Bytes × Option Bytes) := []
  user : User := []

/-- The user that goes along: the call's own, or else the thread's. -/
def Capture.sentUser (capture : Capture) (current : User) : User :=
  if capture.user = [] then current else capture.user

/-- `forgeops_tracker_set_user` -/
def setUser (s : State) (thread : Nat) (pairs : List (Bytes × Bytes)) : State :=
  { s with
    users := Function.update s.users thread (pairs.map fun pair => (some pair.1, some pair.2)) }

/-- `forgeops_tracker_add_breadcrumb` and `forgeops_tracker_clear_breadcrumbs` -/
def handleBreadcrumb (s : State) (thread : Nat) (event : Breadcrumbs.Event) : State :=
  { s with trails := Function.update s.trails thread (Breadcrumbs.handle (s.trails thread) event) }

/-- `forgeops_tracker_current_trace_id` on a thread. -/
def State.traceId (s : State) (thread : Nat) : Option Bytes :=
  (s.tracker.threads thread).trace.map fun trace => trace.traceId.text

def State.event (s : State) (thread : Nat) (capture : Capture) : EventBuilder.Event where
  exceptionClass := capture.exceptionClass
  message := capture.message
  context := capture.context
  user := capture.sentUser (s.users thread)
  breadcrumbs := (Breadcrumbs.snapshot (s.trails thread)).getD []
  sql := capture.sql

/-- `forgeops_tracker_capture_error_with_sql`, the backtrace and the time being what they are. -/
def captureError (s : State) (thread : Nat) (config : Configuration) (capture : Capture)
    (symbols : Option (List Bytes)) (now : Nat) : State :=
  if config.isEnabled then
    let payload := EventBuilder.buildEventJsonWithSql config (s.event thread capture)
      ⟨now, symbols, s.traceId thread⟩
    { s with written := s.written ++ [payload] }
  else s

/-- What `forgeops_tracker_record_change_with_options` is called with. -/
structure Change where
  kind : Option Bytes := none
  title : Option Bytes := none
  details : Changes.Details := []
  options : Option Changes.Options := none

/-- `forgeops_tracker_record_change_with_options` -/
def recordChange (s : State) (config : Configuration) (change : Change) (now : Int) : State :=
  if config.isEnabled then
    { s with
      changes := s.changes ++
        (Changes.build (some config) change.kind change.title change.details
          change.options now).toList }
  else s

inductive Call
  | tracker (call : Tracker.Call)
  | setUser (thread : Nat) (pairs : List (Bytes × Bytes))
  | breadcrumb (thread : Nat) (event : Breadcrumbs.Event)
  | captureError (thread : Nat) (config : Configuration) (capture : Capture)
      (symbols : Option (List Bytes)) (now : Nat)
  | recordChange (config : Configuration) (change : Change) (now : Int)

def step (s : State) : Call → Option State
  | .tracker call => (Tracker.step s.tracker call).map fun t => { s with tracker := t }
  | .setUser thread pairs => some (setUser s thread pairs)
  | .breadcrumb thread event => some (handleBreadcrumb s thread event)
  | .captureError thread config capture symbols now =>
    some (captureError s thread config capture symbols now)
  | .recordChange config change now => some (recordChange s config change now)

/-- All that has left the calls: bodies for the client, each thread's finished traces, changes for
their queue, and payloads for the crash store. -/
structure Sent where
  bodies : List Bytes
  traces : Nat → List Bytes
  changes : List Bytes
  written : List Bytes

def State.sent (s : State) : Sent where
  bodies := s.tracker.bodies
  traces thread := (s.tracker.threads thread).sent
  changes := s.changes
  written := s.written

def nothing : Sent where
  bodies := []
  traces _ := []
  changes := []
  written := []

/-! ## What a thread has of its own -/

/-- The user a call sets on the thread. -/
def Call.userOn (thread : Nat) : Call → Option (List (Bytes × Bytes))
  | .setUser t pairs => if t = thread then some pairs else none
  | _ => none

/-- What a call does to the breadcrumbs of the thread. -/
def Call.breadcrumbOn (thread : Nat) : Call → Option Breadcrumbs.Event
  | .breadcrumb t event => if t = thread then some event else none
  | _ => none

/-- What a call does to the trace of the thread. -/
def Call.actionOn (thread : Nat) : Call → Option Spans.Action
  | .tracker (.spans t action) => if t = thread then some action else none
  | _ => none

/-- The last user that was set on the thread. -/
def lastUser (thread : Nat) (calls : List Call) : List (Bytes × Bytes) :=
  (calls.reverse.findSome? (Call.userOn thread)).getD []

end ForgeOps.Sdk
