import ForgeOpsTracker.Lib.Unwinding
import ForgeOpsTracker.Sdk

/-! What a thread reports is its own: whatever the other threads call in between, an error goes out
with the user, the breadcrumbs and the trace that the thread's own calls have left. -/

namespace ForgeOps.Sdk
open Runs

/-- What a thread has is what its own calls have made of it, and of nothing. -/
structure Owns (thread : Nat) (calls : List Call) (s : State) : Prop where
  user : s.users thread = (lastUser thread calls).map fun pair => (some pair.1, some pair.2)
  trail : s.trails thread = (calls.filterMap (Call.breadcrumbOn thread)).foldl
    Breadcrumbs.handle none
  trace : exec Spans.step Spans.initial (calls.filterMap (Call.actionOn thread)) =
    some (s.tracker.threads thread)

theorem owns_initial (thread : Nat) : Owns thread [] initial := ⟨rfl, rfl, rfl⟩

theorem lastUser_concat (thread : Nat) (calls : List Call) (call : Call) :
    lastUser thread (calls ++ [call]) = (call.userOn thread).getD (lastUser thread calls) := by
  rw [lastUser, lastUser, List.reverse_append, List.reverse_singleton, List.singleton_append,
    List.findSome?_cons]
  cases call.userOn thread <;> rfl

theorem filterMap_concat {α β : Type*} (f : α → Option β) (as : List α) (a : α) :
    (as ++ [a]).filterMap f = as.filterMap f ++ (f a).toList := by
  rw [List.filterMap_append, List.filterMap_cons]
  cases f a <;> rfl

theorem setBuffer_threads (s : Tracker.State) (kind : Tracker.MetricKind) (m : Metrics.State) :
    (s.setBuffer kind m).threads = s.threads := by
  cases kind <;> rfl

/-- A step of the shared part that is no step of a thread's trace leaves all traces alone. -/
theorem threads_step {s t : Tracker.State} {call : Tracker.Call}
    (h : Tracker.step s call = some t) :
    (∃ thread action traces, call = .spans thread action ∧
        Spans.step (s.threads thread) action = some traces ∧
        t.threads = Function.update s.threads thread traces) ∨
      (∀ thread action, call ≠ .spans thread action) ∧ t.threads = s.threads := by
  cases call with
  | spans thread action =>
    obtain ⟨traces, htraces, rfl⟩ := Option.map_eq_some_iff.mp h
    exact .inl ⟨thread, action, traces, rfl, htraces, rfl⟩
  | performanceDelivered i status =>
    obtain ⟨p, -, rfl⟩ := Option.map_eq_some_iff.mp h
    exact .inr ⟨fun _ _ => Tracker.Call.noConfusion, rfl⟩
  | metricsDelivered kind i status =>
    obtain ⟨m, -, rfl⟩ := Option.map_eq_some_iff.mp h
    exact .inr ⟨fun _ _ => Tracker.Call.noConfusion, setBuffer_threads s kind m⟩
  | flushMetrics kind =>
    obtain rfl := Option.some.inj h
    exact .inr ⟨fun _ _ => Tracker.Call.noConfusion, setBuffer_threads s kind _⟩
  | _ =>
    obtain rfl := Option.some.inj h
    exact .inr ⟨fun _ _ => Tracker.Call.noConfusion, rfl⟩

section
variable {s t : State} {call : Call} (h : step s call = some t) (thread : Nat)
include h

theorem users_step : t.users thread =
    ((call.userOn thread).map fun pairs => pairs.map fun pair => (some pair.1, some pair.2)).getD
      (s.users thread) := by
  cases call with
  | setUser other pairs =>
    obtain rfl := Option.some.inj h
    by_cases hother : other = thread
    · subst hother
      rw [Call.userOn, if_pos rfl]
      exact Function.update_self _ _ _
    · rw [Call.userOn, if_neg hother]
      exact Function.update_of_ne (Ne.symm hother) _ _
  | tracker call =>
    obtain ⟨tracker, -, rfl⟩ := Option.map_eq_some_iff.mp h
    rfl
  | breadcrumb other event =>
    obtain rfl := Option.some.inj h
    rfl
  | captureError other config capture symbols now =>
    obtain rfl := Option.some.inj h
    unfold captureError
    split <;> rfl
  | recordChange config change now =>
    obtain rfl := Option.some.inj h
    unfold recordChange
    split <;> rfl

theorem trails_step : t.trails thread = (call.breadcrumbOn thread).toList.foldl Breadcrumbs.handle
    (s.trails thread) := by
  cases call with
  | breadcrumb other event =>
    obtain rfl := Option.some.inj h
    by_cases hother : other = thread
    · subst hother
      rw [Call.breadcrumbOn, if_pos rfl]
      exact Function.update_self _ _ _
    · rw [Call.breadcrumbOn, if_neg hother]
      exact Function.update_of_ne (Ne.symm hother) _ _
  | tracker call =>
    obtain ⟨tracker, -, rfl⟩ := Option.map_eq_some_iff.mp h
    rfl
  | setUser other pairs =>
    obtain rfl := Option.some.inj h
    rfl
  | captureError other config capture symbols now =>
    obtain rfl := Option.some.inj h
    unfold captureError
    split <;> rfl
  | recordChange config change now =>
    obtain rfl := Option.some.inj h
    unfold recordChange
    split <;> rfl

theorem traces_step : exec Spans.step (s.tracker.threads thread) (call.actionOn thread).toList =
    some (t.tracker.threads thread) := by
  cases call with
  | tracker call =>
    obtain ⟨tracker, htracker, rfl⟩ := Option.map_eq_some_iff.mp h
    rcases threads_step htracker with ⟨other, action, traces, rfl, haction, htraces⟩ |
      ⟨hnone, htraces⟩
    · by_cases hother : other = thread
      · subst hother
        rw [Call.actionOn, if_pos rfl, Option.toList_some, exec_cons, haction]
        exact congrArg some ((congrFun htraces other).trans (Function.update_self _ _ _)).symm
      · rw [Call.actionOn, if_neg hother]
        exact congrArg some ((congrFun htraces thread).trans
          (Function.update_of_ne (Ne.symm hother) _ _)).symm
    · have hon : Call.actionOn thread (.tracker call) = none := by
        cases call with
        | spans other action => exact absurd rfl (hnone other action)
        | _ => rfl
      rw [hon]
      exact congrArg some (congrFun htraces thread).symm
  | setUser other pairs =>
    obtain rfl := Option.some.inj h
    rfl
  | breadcrumb other event =>
    obtain rfl := Option.some.inj h
    rfl
  | captureError other config capture symbols now =>
    obtain rfl := Option.some.inj h
    unfold captureError
    split <;> rfl
  | recordChange config change now =>
    obtain rfl := Option.some.inj h
    unfold recordChange
    split <;> rfl

end

theorem Owns.step {thread : Nat} {calls : List Call} {s t : State} {call : Call}
    (h : Owns thread calls s) (ht : step s call = some t) : Owns thread (calls ++ [call]) t := by
  refine ⟨?_, ?_, ?_⟩
  · rw [users_step ht, h.user, lastUser_concat]
    cases call.userOn thread <;> rfl
  · rw [trails_step ht, h.trail, filterMap_concat, List.foldl_append]
  · rw [filterMap_concat, exec_append, h.trace, Option.bind_some, traces_step ht]

/-- So it is after every run, in whatever order the threads took their turns. -/
theorem owns_run {calls : List Call} {s : State} (h : exec step initial calls = some s)
    (thread : Nat) : Owns thread calls s :=
  exec_told (owns_initial thread) (fun _ _ _ _ howns hstep => howns.step hstep) h

/-! ## What goes out with an error -/

/-- The event as the thread's own calls say it is: a user that was set on it, the plain list of its
breadcrumbs. -/
def ownEvent (thread : Nat) (calls : List Call) (capture : Capture) : EventBuilder.Event where
  exceptionClass := capture.exceptionClass
  message := capture.message
  context := capture.context
  user := capture.sentUser ((lastUser thread calls).map fun pair => (some pair.1, some pair.2))
  breadcrumbs :=
    ((calls.filterMap (Call.breadcrumbOn thread)).foldl Breadcrumbs.PlainTrail.handle
      ⟨none, []⟩).entries
  sql := capture.sql

/-- The trace the thread's own calls have left open. -/
def ownTraceId (thread : Nat) (calls : List Call) : Option Bytes :=
  (exec Spans.step Spans.initial (calls.filterMap (Call.actionOn thread))).bind fun s =>
    s.trace.map fun trace => trace.traceId.text

/-- The breadcrumbs of a thread are the plain list that its own calls make. -/
theorem entries_own {calls : List Call} {s : State} {thread : Nat} (h : Owns thread calls s) :
    Breadcrumbs.entries (s.trails thread) =
      ((calls.filterMap (Call.breadcrumbOn thread)).foldl Breadcrumbs.PlainTrail.handle
        ⟨none, []⟩).entries := by
  have hplain : Breadcrumbs.Represents (s.trails thread)
      ((calls.filterMap (Call.breadcrumbOn thread)).foldl Breadcrumbs.PlainTrail.handle
        ⟨none, []⟩) := by
    rw [h.trail]
    exact Breadcrumbs.represents_run _ ⟨rfl, rfl⟩
  exact hplain.entries

theorem event_own {calls : List Call} {s : State} {thread : Nat} (h : Owns thread calls s)
    (capture : Capture) : s.event thread capture = ownEvent thread calls capture := by
  have hsnapshot : ∀ trail, (Breadcrumbs.snapshot trail).getD [] = Breadcrumbs.entries trail := by
    intro trail
    rw [Breadcrumbs.snapshot_eq]
    split
    · rename_i hempty
      exact hempty.symm
    · rfl
  rw [State.event, ownEvent, h.user, hsnapshot, entries_own h]

theorem traceId_own {calls : List Call} {s : State} {thread : Nat} (h : Owns thread calls s) :
    s.traceId thread = ownTraceId thread calls := by
  rw [ownTraceId, h.trace]
  rfl

/-- An error is reported with what its thread's own calls have left, whatever the other threads
called in between. -/
theorem captureError_own {calls : List Call} {s : State}
    (h : exec step initial calls = some s) (thread : Nat) {config : Configuration}
    (henabled : config.isEnabled = true) (capture : Capture)
    (symbols : Option (List Bytes)) (now : Nat) :
    (captureError s thread config capture symbols now).written = s.written ++
      [EventBuilder.buildEventJsonWithSql config (ownEvent thread calls capture)
        ⟨now, symbols, ownTraceId thread calls⟩] := by
  have howns := owns_run h thread
  rw [captureError, if_pos henabled, event_own howns, traceId_own howns]

def reporting : Configuration := { dsn := some (ascii "https://k@h") }

/-- Two threads take turns, each with a user, a breadcrumb and a trace of its own. -/
def twoThreads : List Call :=
  [.setUser 0 [(ascii "id", ascii "42")],
    .breadcrumb 1 (.add { config := reporting, message := some (ascii "job taken"), now := 0 }),
    .tracker (.spans 1 (.traceBegin (some reporting) none
      ⟨ascii "7a57e51916cd43dd8448eb2113107ace", rfl, rfl, rfl⟩
      ⟨ascii "5ea1ed0c0ffee171", rfl, rfl, rfl⟩ true)),
    .breadcrumb 0 (.add { config := reporting, message := some (ascii "cart paid"), now := 0 }),
    .setUser 1 [(ascii "id", ascii "7")],
    .tracker (.spans 0 (.traceBegin (some reporting) none
      ⟨ascii "0b5e55ed16cd43dd8448eb2113107ace", rfl, rfl, rfl⟩
      ⟨ascii "5ca1ab1e0ffee171", rfl, rfl, rfl⟩ true)),
    .breadcrumb 1 .clear]

theorem captureError_own_twoThreads :
    ∃ s, exec step initial twoThreads = some s ∧
      (captureError s 0 reporting {} none 0).written = s.written ++
        [EventBuilder.buildEventJsonWithSql reporting (ownEvent 0 twoThreads {})
          ⟨0, none, ownTraceId 0 twoThreads⟩] ∧
      (ownEvent 0 twoThreads {}).user = [(some (ascii "id"), some (ascii "42"))] ∧
      (ownEvent 0 twoThreads {}).breadcrumbs.length = 1 ∧
      ownTraceId 0 twoThreads = some (ascii "0b5e55ed16cd43dd8448eb2113107ace") := by
  have hrun : exec step initial twoThreads = some _ := rfl
  exact ⟨_, hrun, captureError_own hrun 0 (by decide) {} none 0, by
    decide, by decide +kernel, by decide⟩

end ForgeOps.Sdk
