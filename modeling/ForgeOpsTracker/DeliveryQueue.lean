import ForgeOpsTracker.Lib.Fifo
import ForgeOpsTracker.Lib.Runs
import ForgeOpsTracker.Configuration

/-! The delivery queue of the spans, which the changes copy: threads put bodies into a bounded
queue, one thread that starts with the first body hands them to the client, and the exit hook
stops that thread and waits for it.

A step is one lock-held section, one call of the client or one wake-up. A thread that waits may
wake at any time, so nothing here rests on a signal that arrives. -/

namespace ForgeOps.DeliveryQueue

/-- Where the delivery thread stands. -/
inductive Worker
  | unstarted
  | locking
  | waiting
  | delivering (config : Option Configuration) (body : Bytes)
  | finished

/-- Where `drain_at_exit` stands, which runs once. -/
inductive ExitHook
  | pending
  | joining (wasRunning : Bool)
  | returned

/-- The variables that `queue_lock` guards and where the threads stand. The lists at the end are
history that no step reads: the bodies that were queued, those among them that were queued when
the exit hook took the lock, and those that went to the client. -/
structure State where
  queue : Fifo Bytes
  workerRunning : Bool
  workerStop : Bool
  workerConfig : Option Configuration
  atexitRegistered : Bool
  worker : Worker
  exitHook : ExitHook
  accepted : List Bytes
  acceptedAtExit : List Bytes
  handed : List Bytes

def initial (limit : Nat) : State :=
  ⟨Fifo.create limit, false, false, none, false, .unstarted, .pending, [], [], []⟩

/-- `enqueue` under the lock; whether the body was queued. `pthread_create` succeeds. -/
def enqueue (limit : Nat) (s : State) (config : Option Configuration) (body : Bytes) :
    State × Bool :=
  if s.queue.count ≥ limit then (s, false)
  else
    let s := { s with
      queue := s.queue.push body
      workerConfig := config
      atexitRegistered := true
      accepted := s.accepted ++ [body] }
    if s.workerRunning then (s, true)
    else ({ s with workerStop := false, worker := .locking, workerRunning := true }, true)

/-- `worker_deliver_loop` (`worker_main` of the changes) from where it has the lock to where it
gives it up. -/
def workerLocked (s : State) : Option State :=
  if s.queue.count = 0 then
    some { s with worker := if s.workerStop then .finished else .waiting }
  else
    s.queue.first.map fun body =>
      { s with queue := s.queue.shift, worker := .delivering s.workerConfig body }

/-- `drain_at_exit` under the lock. -/
def drainAtExit (s : State) : State :=
  { s with
    workerStop := true
    exitHook := .joining s.workerRunning
    acceptedAtExit := s.accepted }

/-- Both callers return before they queue anything when the configuration is NULL. -/
inductive Action (β : Type)
  | enqueue (config : Configuration) (body : β)
  | workerLocks
  | workerWakes
  | workerDelivers
  | exitLocks
  | exitReturns

def step {β : Type} (enqueue : State → Option Configuration → β → State × Bool) (s : State) :
    Action β → Option State
  | .enqueue config body => some (enqueue s (some config) body).1
  | .workerLocks =>
    match s.worker with
    | .locking => workerLocked s
    | _ => none
  | .workerWakes =>
    match s.worker with
    | .waiting => some { s with worker := .locking }
    | _ => none
  | .workerDelivers =>
    match s.worker with
    | .delivering config body =>
      some { s with
        worker := .locking
        handed := if config.isSome then s.handed ++ [body] else s.handed }
    | _ => none
  | .exitLocks =>
    match s.exitHook with
    | .pending => if s.atexitRegistered then some (drainAtExit s) else none
    | _ => none
  | .exitReturns =>
    match s.exitHook, s.worker with
    | .joining false, _ => some { s with exitHook := .returned }
    | .joining true, .finished => some { s with exitHook := .returned }
    | _, _ => none

end ForgeOps.DeliveryQueue

namespace ForgeOps.Spans

/-- `FORGEOPS_SPANS_QUEUE_LIMIT` -/
def queueLimit : Nat := 100

/-- `enqueue` -/
def enqueue : DeliveryQueue.State → Option Configuration → Bytes → DeliveryQueue.State × Bool :=
  DeliveryQueue.enqueue queueLimit

end ForgeOps.Spans

namespace ForgeOps.Changes

/-- `FORGEOPS_CHANGES_QUEUE_LIMIT` -/
def queueLimit : Nat := 100

/-- `forgeops_changes_enqueue` -/
def enqueue (s : DeliveryQueue.State) (config : Option Configuration) (body : Option Bytes) :
    DeliveryQueue.State × Bool :=
  match body with
  | none => (s, false)
  | some body => DeliveryQueue.enqueue queueLimit s config body

end ForgeOps.Changes

namespace ForgeOps.DeliveryQueue

/-- The body that the delivery thread has taken and not yet handed over. -/
def Worker.taken : Worker → List Bytes
  | .delivering _ body => [body]
  | _ => []

/-- What holds between any two steps. -/
structure Invariant (limit : Nat) (s : State) : Prop where
  held : ∃ queued, s.queue.Holds limit queued ∧ s.accepted = s.handed ++ s.worker.taken ++ queued
  workerConfig : s.accepted ≠ [] → s.workerConfig ≠ none
  delivering : ∀ body, s.worker ≠ .delivering none body
  unstarted : s.workerRunning = false → s.worker = .unstarted ∧ s.accepted = []
  started : s.workerRunning = true → s.worker ≠ .unstarted
  stopped : s.workerStop = true → s.workerRunning = true → s.exitHook ≠ .pending
  draining : s.exitHook = .joining true → s.workerRunning = true ∧ s.workerStop = true
  beforeExit : s.acceptedAtExit <+: s.accepted
  finished : s.worker = .finished → s.exitHook ≠ .pending ∧ s.acceptedAtExit <+: s.handed
  joining : s.exitHook = .joining false → s.acceptedAtExit = []
  returned : s.exitHook = .returned → s.acceptedAtExit <+: s.handed

theorem initial_invariant (limit : Nat) : Invariant limit (initial limit) where
  held := ⟨[], Fifo.holds_create limit, rfl⟩
  workerConfig h := absurd rfl h
  delivering _ h := by cases h
  unstarted _ := ⟨rfl, rfl⟩
  started h := by cases h
  stopped h := by cases h
  draining h := by cases h
  beforeExit := List.prefix_refl []
  finished h := by cases h
  joining _ := rfl
  returned h := by cases h

section
variable {limit : Nat} {s t : State}

/-- A body is refused by a full queue only; the first one starts the thread. -/
theorem enqueue_cases (limit : Nat) (s : State) (config : Option Configuration) (body : Bytes) :
    s.queue.count ≥ limit ∧ enqueue limit s config body = (s, false) ∨
      s.queue.count < limit ∧
        (s.workerRunning = true ∧
            enqueue limit s config body = ({ s with
              queue := s.queue.push body
              workerConfig := config
              atexitRegistered := true
              accepted := s.accepted ++ [body] }, true) ∨
          s.workerRunning = false ∧
            enqueue limit s config body = ({ s with
              queue := s.queue.push body
              workerRunning := true
              workerStop := false
              workerConfig := config
              atexitRegistered := true
              worker := .locking
              accepted := s.accepted ++ [body] }, true)) := by
  unfold enqueue
  by_cases hfull : s.queue.count ≥ limit
  · exact .inl ⟨hfull, if_pos hfull⟩
  · right
    rw [if_neg hfull]
    refine ⟨Nat.not_le.mp hfull, ?_⟩
    cases s.workerRunning with
    | true => exact .inl ⟨rfl, rfl⟩
    | false => exact .inr ⟨rfl, rfl⟩

theorem Invariant.enqueue (h : Invariant limit s) (config : Configuration) (body : Bytes) :
    Invariant limit (DeliveryQueue.enqueue limit s (some config) body).1 := by
  obtain ⟨queued, hqueue, haccepted⟩ := h.held
  have hlonger : s.acceptedAtExit <+: s.accepted ++ [body] :=
    h.beforeExit.trans (List.prefix_append _ _)
  rcases enqueue_cases limit s (some config) body with ⟨-, heq⟩ |
    ⟨hroom, ⟨hrunning, heq⟩ | ⟨hidle, heq⟩⟩
  · rw [heq]
    exact h
  · rw [heq]
    exact { h with
      held := ⟨_, hqueue.push hroom body, by rw [haccepted, List.append_assoc]⟩
      workerConfig := fun _ => Option.some_ne_none _
      unstarted := fun hidle' => absurd (hrunning.symm.trans hidle') (by simp)
      beforeExit := hlonger }
  · -- the thread starts, so nothing was queued before
    obtain ⟨-, hempty⟩ := h.unstarted hidle
    rw [hempty, eq_comm, List.append_eq_nil_iff, List.append_eq_nil_iff] at haccepted
    obtain ⟨⟨hhanded, -⟩, rfl⟩ := haccepted
    rw [heq]
    exact { h with
      held := ⟨_, hqueue.push hroom body, by simp [hempty, hhanded, Worker.taken]⟩
      workerConfig := fun _ => Option.some_ne_none _
      delivering := fun _ hd => by cases hd
      unstarted := fun hd => by cases hd
      started := fun _ hd => by cases hd
      stopped := fun hd => by cases hd
      draining := fun hd => absurd (hidle.symm.trans (h.draining hd).1) (by simp)
      beforeExit := hlonger
      finished := fun hd => by cases hd }

theorem Invariant.workerLocked (h : Invariant limit s) (hworker : s.worker = .locking)
    (ht : DeliveryQueue.workerLocked s = some t) : Invariant limit t := by
  obtain ⟨queued, hqueue, haccepted⟩ := h.held
  simp only [hworker, Worker.taken, List.append_nil] at haccepted
  have hrunning : s.workerRunning = true := by
    by_contra hidle
    have hunstarted := (h.unstarted (Bool.eq_false_iff.mpr hidle)).1
    rw [hworker] at hunstarted
    cases hunstarted
  have hstarted : ∀ worker, s.workerRunning = false → worker = Worker.unstarted ∧ s.accepted = [] :=
    fun _ hidle => absurd (hrunning.symm.trans hidle) (by simp)
  unfold DeliveryQueue.workerLocked at ht
  cases queued with
  | nil =>
    have hcount : s.queue.count = 0 := hqueue.count
    rw [if_pos hcount] at ht
    rw [List.append_nil] at haccepted
    by_cases hstop : s.workerStop = true
    · rw [if_pos hstop] at ht
      obtain rfl := Option.some.inj ht
      exact { h with
        held := ⟨[], hqueue, by simp [haccepted, Worker.taken]⟩
        delivering := fun _ hd => by cases hd
        unstarted := hstarted _
        started := fun _ hd => by cases hd
        finished := fun _ => ⟨h.stopped hstop hrunning, haccepted ▸ h.beforeExit⟩ }
    · rw [if_neg hstop] at ht
      obtain rfl := Option.some.inj ht
      exact { h with
        held := ⟨[], hqueue, by simp [haccepted, Worker.taken]⟩
        delivering := fun _ hd => by cases hd
        unstarted := hstarted _
        started := fun _ hd => by cases hd
        finished := fun hd => by cases hd }
  | cons body queued =>
    rw [if_neg (by rw [hqueue.count]; exact Nat.succ_ne_zero _), hqueue.first,
      Option.map_some] at ht
    obtain rfl := Option.some.inj ht
    have hconfig : s.workerConfig ≠ none := h.workerConfig (by rw [haccepted]; simp)
    exact { h with
      held := ⟨queued, hqueue.shift, by simp [haccepted, Worker.taken]⟩
      delivering := fun _ hd => hconfig (Worker.delivering.inj hd).1
      unstarted := hstarted _
      started := fun _ hd => by cases hd
      finished := fun hd => by cases hd }

theorem Invariant.step {β : Type} {enqueue : State → Option Configuration → β → State × Bool}
    (henqueue : ∀ s config body, Invariant limit s →
      Invariant limit (enqueue s (some config) body).1)
    (s : State) (a : Action β) (t : State) (h : Invariant limit s)
    (ht : DeliveryQueue.step enqueue s a = some t) :
    Invariant limit t := by
  cases a with
  | enqueue config body =>
    obtain rfl := Option.some.inj ht
    exact henqueue s config body h
  | workerLocks =>
    cases hworker : s.worker <;> simp only [DeliveryQueue.step, hworker, reduceCtorEq] at ht
    exact h.workerLocked hworker ht
  | workerWakes =>
    cases hworker : s.worker <;> simp only [DeliveryQueue.step, hworker, reduceCtorEq,
      Option.some.injEq] at ht
    subst ht
    have hheld := h.held
    have hunstarted := h.unstarted
    simp only [hworker] at hheld hunstarted
    exact { h with
      held := hheld
      delivering := fun _ hd => by cases hd
      unstarted := fun hidle => absurd (hunstarted hidle).1 (by simp)
      started := fun _ hd => by cases hd
      finished := fun hd => by cases hd }
  | workerDelivers =>
    cases hworker : s.worker <;> simp only [DeliveryQueue.step, hworker, reduceCtorEq,
      Option.some.injEq] at ht
    rename_i config body
    subst ht
    have hheld := h.held
    have hunstarted := h.unstarted
    simp only [hworker, Worker.taken] at hheld hunstarted
    have hconfig : config.isSome = true := by
      rw [Option.isSome_iff_ne_none]
      rintro rfl
      exact h.delivering body hworker
    rw [if_pos hconfig]
    exact { h with
      held := by simpa [Worker.taken] using hheld
      delivering := fun _ hd => by cases hd
      unstarted := fun hidle => absurd (hunstarted hidle).1 (by simp)
      started := fun _ hd => by cases hd
      finished := fun hd => by cases hd
      returned := fun hd => (h.returned hd).trans (List.prefix_append _ _) }
  | exitLocks =>
    cases hexit : s.exitHook <;> simp only [DeliveryQueue.step, hexit, reduceCtorEq] at ht
    split at ht
    swap
    · cases ht
    obtain rfl := Option.some.inj ht
    exact { h with
      stopped := fun _ _ hd => by cases hd
      draining := fun hd => ⟨ExitHook.joining.inj hd, rfl⟩
      beforeExit := List.prefix_refl _
      finished := fun hd => absurd hexit (h.finished hd).1
      joining := fun hd => (h.unstarted (ExitHook.joining.inj hd)).2
      returned := fun hd => by cases hd }
  | exitReturns =>
    have hdone : s.acceptedAtExit <+: s.handed ∧ t = { s with exitHook := .returned } := by
      simp only [DeliveryQueue.step] at ht
      split at ht
      · rename_i hexit
        exact ⟨(h.joining hexit).symm ▸ List.nil_prefix, (Option.some.inj ht).symm⟩
      · rename_i hexit hworker
        exact ⟨(h.finished hworker).2, (Option.some.inj ht).symm⟩
      · cases ht
    obtain ⟨hdrained, rfl⟩ := hdone
    exact { h with
      stopped := fun _ _ hd => by cases hd
      draining := fun hd => by cases hd
      finished := fun _ => ⟨ExitHook.noConfusion, hdrained⟩
      joining := fun hd => by cases hd
      returned := fun _ => hdrained }

/-- With the lock in reach, a stopped thread hands over what is left and finishes. The induction is
on how much is left. -/
theorem Invariant.drains {β : Type} {enqueue : State → Option Configuration → β → State × Bool}
    (henqueue : ∀ s config body, Invariant limit s →
      Invariant limit (enqueue s (some config) body).1)
    (n : Nat) {s : State} (h : Invariant limit s) (hexit : s.exitHook = .joining true)
    (hworker : s.worker = .locking) (hn : s.queue.count = n) :
    ∃ run t, Runs.exec (DeliveryQueue.step enqueue) s run = some t ∧ t.exitHook = .returned := by
  induction n generalizing s with
  | zero =>
    have hstop := (h.draining hexit).2
    refine ⟨[.workerLocks, .exitReturns],
      { s with worker := .finished, exitHook := .returned }, ?_, rfl⟩
    simp only [Runs.exec_cons, Runs.exec_nil, DeliveryQueue.step, hworker,
      DeliveryQueue.workerLocked, hn, hstop, hexit, if_true, Option.bind_some]
  | succ n ih =>
    obtain ⟨queued, hqueue, -⟩ := h.held
    cases queued with
    | nil => exact absurd (hn.symm.trans hqueue.count) (Nat.succ_ne_zero n)
    | cons body queued =>
      have hlocks : DeliveryQueue.step enqueue s .workerLocks = some { s with
          queue := s.queue.shift
          worker := .delivering s.workerConfig body } := by
        simp only [DeliveryQueue.step, hworker, DeliveryQueue.workerLocked, hn, Nat.succ_ne_zero,
          if_false, hqueue.first, Option.map_some]
      have hdelivers : DeliveryQueue.step enqueue { s with
          queue := s.queue.shift
          worker := .delivering s.workerConfig body } .workerDelivers = some { s with
            queue := s.queue.shift
            worker := .locking
            handed := if s.workerConfig.isSome then s.handed ++ [body] else s.handed } := rfl
      have hnext := Invariant.step henqueue _ _ _ (Invariant.step henqueue _ _ _ h hlocks) hdelivers
      have hcount : s.queue.shift.count = n := by rw [Fifo.shift, hn, Nat.add_sub_cancel]
      obtain ⟨run, t, hrun, ht⟩ := ih hnext hexit rfl hcount
      refine ⟨.workerLocks :: .workerDelivers :: run, t, ?_, ht⟩
      rw [Runs.exec_cons, hlocks, Option.bind_some, Runs.exec_cons, hdelivers,
        Option.bind_some, hrun]

/-- Wherever the threads stand when the exit hook waits, it can come back. -/
theorem Invariant.exitHook_returns {β : Type}
    {enqueue : State → Option Configuration → β → State × Bool}
    (henqueue : ∀ s config body, Invariant limit s →
      Invariant limit (enqueue s (some config) body).1)
    (h : Invariant limit s) {wasRunning : Bool} (hexit : s.exitHook = .joining wasRunning) :
    ∃ run t, Runs.exec (DeliveryQueue.step enqueue) s run = some t ∧ t.exitHook = .returned := by
  cases wasRunning with
  | false =>
    refine ⟨[.exitReturns], { s with exitHook := .returned }, ?_, rfl⟩
    simp only [Runs.exec_cons, Runs.exec_nil, DeliveryQueue.step, hexit, Option.bind_some]
  | true =>
    cases hworker : s.worker with
    | unstarted => exact absurd hworker (h.started (h.draining hexit).1)
    | locking => exact h.drains henqueue _ hexit hworker rfl
    | waiting =>
      have hwakes : DeliveryQueue.step enqueue s .workerWakes =
          some { s with worker := .locking } := by
        simp only [DeliveryQueue.step, hworker]
      obtain ⟨run, t, hrun, ht⟩ := (Invariant.step henqueue _ _ _ h hwakes).drains henqueue
        _ hexit rfl rfl
      refine ⟨.workerWakes :: run, t, ?_, ht⟩
      rw [Runs.exec_cons, hwakes, Option.bind_some, hrun]
    | delivering config body =>
      have hdelivers : DeliveryQueue.step enqueue s .workerDelivers = some { s with
          worker := .locking
          handed := if config.isSome then s.handed ++ [body] else s.handed } := by
        simp only [DeliveryQueue.step, hworker]
      obtain ⟨run, t, hrun, ht⟩ := (Invariant.step henqueue _ _ _ h hdelivers).drains henqueue
        _ hexit rfl rfl
      refine ⟨.workerDelivers :: run, t, ?_, ht⟩
      rw [Runs.exec_cons, hdelivers, Option.bind_some, hrun]
    | finished =>
      refine ⟨[.exitReturns], { s with exitHook := .returned }, ?_, rfl⟩
      simp only [Runs.exec_cons, Runs.exec_nil, DeliveryQueue.step, hexit, hworker,
        Option.bind_some]

end

/-! ## Both queues -/

theorem spans_enqueue_invariant (s : State) (config : Configuration) (body : Bytes)
    (h : Invariant Spans.queueLimit s) :
    Invariant Spans.queueLimit (Spans.enqueue s (some config) body).1 :=
  h.enqueue config body

theorem changes_enqueue_invariant (s : State) (config : Configuration) (body : Option Bytes)
    (h : Invariant Changes.queueLimit s) :
    Invariant Changes.queueLimit (Changes.enqueue s (some config) body).1 := by
  cases body with
  | none => exact h
  | some body => exact h.enqueue config body

/-- A call that refuses its body finds the queue full, and one that does not adds it to the end. -/
def Answers (limit : Nat) (s : State) (body : Bytes) (result : State × Bool) : Prop :=
  (result.2 = false → s.queue.count = limit ∧ result.1 = s) ∧
    (result.2 = true → result.1.accepted = s.accepted ++ [body])

theorem enqueue_answers {limit : Nat} {s : State} (h : Invariant limit s)
    (config : Option Configuration) (body : Bytes) :
    Answers limit s body (enqueue limit s config body) := by
  obtain ⟨queued, hqueue, -⟩ := h.held
  rcases enqueue_cases limit s config body with ⟨hfull, heq⟩ | ⟨-, ⟨-, heq⟩ | ⟨-, heq⟩⟩
  · rw [heq]
    exact ⟨fun _ => ⟨Nat.le_antisymm hqueue.count_le hfull, rfl⟩, fun hd => absurd hd (by simp)⟩
  · rw [heq]
    exact ⟨fun hd => absurd hd (by simp), fun _ => rfl⟩
  · rw [heq]
    exact ⟨fun hd => absurd hd (by simp), fun _ => rfl⟩

/-- The queue is within its limit, the client has had the bodies that were queued in their order,
and all that were queued before the exit hook once the hook is through. -/
def Delivers (limit : Nat) (s : State) : Prop :=
  s.queue.count ≤ limit ∧ s.handed <+: s.accepted ∧
    (s.exitHook = .returned → s.acceptedAtExit <+: s.handed)

/-- What was handed over comes first among what was queued. -/
theorem Invariant.in_order {limit : Nat} {s : State} (h : Invariant limit s) :
    s.handed <+: s.accepted := by
  obtain ⟨queued, -, haccepted⟩ := h.held
  rw [haccepted, List.append_assoc]
  exact List.prefix_append _ _

theorem Invariant.delivers {limit : Nat} {s : State} (h : Invariant limit s) :
    Delivers limit s := by
  obtain ⟨queued, hqueue, -⟩ := h.held
  exact ⟨hqueue.count_le, h.in_order, h.returned⟩

/-- In every interleaving both queues deliver what they accept, and refuse a body only when full. -/
theorem queues_deliver :
    (∀ run : List (Action Bytes),
      Runs.Always (step Spans.enqueue) (Delivers Spans.queueLimit) (initial Spans.queueLimit) run ∧
        ∀ s, Runs.exec (step Spans.enqueue) (initial Spans.queueLimit) run = some s → ∀ config body,
          Answers Spans.queueLimit s body (Spans.enqueue s (some config) body)) ∧
    ∀ run : List (Action (Option Bytes)),
      Runs.Always (step Changes.enqueue) (Delivers Changes.queueLimit)
          (initial Changes.queueLimit) run ∧
        ∀ s, Runs.exec (step Changes.enqueue) (initial Changes.queueLimit) run = some s →
          ∀ config body,
            Answers Changes.queueLimit s body (Changes.enqueue s (some config) (some body)) := by
  constructor
  · intro run
    have halways := Runs.always_of_invariant (Invariant.step spans_enqueue_invariant) _ run
      (initial_invariant Spans.queueLimit)
    exact ⟨halways.imp fun s hs => hs.delivers,
      fun s hs config body => enqueue_answers (halways.last hs) _ body⟩
  · intro run
    have halways := Runs.always_of_invariant (Invariant.step changes_enqueue_invariant) _ run
      (initial_invariant Changes.queueLimit)
    exact ⟨halways.imp fun s hs => hs.delivers,
      fun s hs config body => enqueue_answers (halways.last hs) _ body⟩

end ForgeOps.DeliveryQueue
