import ForgeOpsTracker.Lib.Once
import ForgeOpsTracker.Configuration

/-! What a process does once, though any of its threads may be the one to do it
(`forgeops_tracker.c`): the warning that an environment is not one that sends, and the exit hook
that uploads what is left. Each access of `environment_warning_given` and `upload_atexit_registered`
is a step. -/

namespace ForgeOps.Guards

/-! ## The warning -/

/-- `environment_is_enabled` -/
def environmentIsEnabled (config : Configuration) : Bool :=
  match config.environment with
  | none => false
  | some environment => config.enabledEnvironments.contains environment

def dsnIsSet (config : Configuration) : Bool :=
  match config.dsn with
  | none => false
  | some dsn => dsn ≠ []

/-- A DSN is set, but the environment is not one that sends. -/
def isMuted (config : Configuration) : Bool := dsnIsSet config && !environmentIsEnabled config

/-- The loop that lists the enabled environments. -/
def enabledList (environments : List Bytes) : Bytes :=
  environments.foldl (fun out environment => (if out = [] then [] else out ++ ascii ", ") ++
    environment) []

/-- What is printed. -/
def warningText (config : Configuration) : Bytes :=
  let environment := config.environment.getD []
  ascii "[ForgeOps] Not sending: this environment is \"" ++ environment ++ ascii "\", and only " ++
    enabledList config.enabledEnvironments ++
    ascii " are enabled. Set FORGE_OPS_ENVIRONMENT=production (or add \"" ++ environment ++
    ascii "\" to the enabled environments) to send from here.\n"

/-! ## The calls -/

/-- The warning comes with its configuration, and with whether there is memory for the list in
it. -/
structure State where
  warning : Once.State (Configuration × Bool)
  uploads : Once.State Unit

def initial : State := ⟨Once.initial, Once.initial⟩

/-- `activate` is `warn_once_if_environment_is_not_enabled` before its exchange, and `captureError`
the check that comes before the exchange in `forgeops_tracker_capture_error_with_sql`. -/
inductive Call
  | activate (caller : Nat) (config : Configuration) (memory : Bool)
  | exchangeWarning (caller : Nat)
  | print (caller : Nat)
  | captureError (caller : Nat) (config : Configuration)
  | exchangeUploads (caller : Nat)
  | register (caller : Nat)

def Call.onWarning : Call → Option (Once.Action (Configuration × Bool))
  | .activate caller config memory =>
    if isMuted config then some (.look caller (config, memory)) else none
  | .exchangeWarning caller => some (.exchange caller)
  | .print caller => some (.finish caller)
  | _ => none

def Call.onUploads : Call → Option (Once.Action Unit)
  | .captureError caller config => if config.isEnabled then some (.enter caller ()) else none
  | .exchangeUploads caller => some (.exchange caller)
  | .register caller => some (.finish caller)
  | _ => none

def step (s : State) (call : Call) : Option State := do
  let warning ← Runs.exec Once.step s.warning call.onWarning.toList
  let uploads ← Runs.exec Once.step s.uploads call.onUploads.toList
  return ⟨warning, uploads⟩

/-- What stands on stderr. -/
def State.printed (s : State) : List Bytes :=
  s.warning.finished.filterMap fun job => if job.2 then some (warningText job.1) else none

/-- How often `upload_at_exit` was registered. -/
def State.registered (s : State) : Nat := s.uploads.finished.length

/-- No call is under way. -/
def State.AtRest (s : State) : Prop :=
  ∀ caller, s.warning.phases caller = .idle ∧ s.uploads.phases caller = .idle

theorem step_parts {s t : State} {call : Call} (h : step s call = some t) :
    Runs.exec Once.step s.warning call.onWarning.toList = some t.warning ∧
      Runs.exec Once.step s.uploads call.onUploads.toList = some t.uploads := by
  obtain ⟨warning, hwarning, h⟩ := Option.bind_eq_some_iff.mp h
  obtain ⟨uploads, huploads, h⟩ := Option.bind_eq_some_iff.mp h
  obtain rfl := Option.some.inj h
  exact ⟨hwarning, huploads⟩

theorem warning_told {calls : List Call} {s : State} (h : Runs.exec step initial calls = some s) :
    Once.Told (calls.filterMap Call.onWarning) s.warning :=
  Once.told_run (Runs.exec_filterMap State.warning Call.onWarning
    (fun _ _ _ ht => (step_parts ht).1) h)

theorem uploads_told {calls : List Call} {s : State} (h : Runs.exec step initial calls = some s) :
    Once.Told (calls.filterMap Call.onUploads) s.uploads :=
  Once.told_run (Runs.exec_filterMap State.uploads Call.onUploads
    (fun _ _ _ ht => (step_parts ht).2) h)

/-- The warning is wanted by the calls that have such a configuration. -/
theorem wanted_warning {calls : List Call} {config : Configuration} {memory : Bool} :
    Once.Wanted (calls.filterMap Call.onWarning) (config, memory) ↔
      isMuted config = true ∧ ∃ caller, .activate caller config memory ∈ calls := by
  constructor
  · rintro ⟨caller, h | h⟩
    · obtain ⟨call, hmem, hcall⟩ := List.mem_filterMap.mp h
      cases call with
      | activate caller' config' memory' =>
        rw [Call.onWarning] at hcall
        split at hcall
        · rename_i hmuted
          obtain ⟨rfl, rfl, rfl⟩ : caller' = caller ∧ config' = config ∧ memory' = memory := by
            simpa using hcall
          exact ⟨hmuted, caller', hmem⟩
        · exact nomatch hcall
      | _ => exact nomatch hcall
    · obtain ⟨call, -, hcall⟩ := List.mem_filterMap.mp h
      cases call with
      | activate caller' config' memory' =>
        rw [Call.onWarning] at hcall
        split at hcall <;> exact nomatch hcall
      | _ => exact nomatch hcall
  · rintro ⟨hmuted, caller, hmem⟩
    exact ⟨caller, .inl (List.mem_filterMap.mpr ⟨_, hmem, if_pos hmuted⟩)⟩

/-- The exit hook is wanted by the captures of an enabled configuration. -/
theorem wanted_uploads {calls : List Call} {job : Unit} :
    Once.Wanted (calls.filterMap Call.onUploads) job ↔
      ∃ caller config, .captureError caller config ∈ calls ∧ config.isEnabled = true := by
  constructor
  · rintro ⟨caller, h | h⟩
    · obtain ⟨call, -, hcall⟩ := List.mem_filterMap.mp h
      cases call with
      | captureError caller' config' =>
        rw [Call.onUploads] at hcall
        split at hcall <;> exact nomatch hcall
      | _ => exact nomatch hcall
    · obtain ⟨call, hmem, hcall⟩ := List.mem_filterMap.mp h
      cases call with
      | captureError caller' config' =>
        rw [Call.onUploads] at hcall
        split at hcall
        · rename_i henabled
          exact ⟨caller', config', hmem, henabled⟩
        · exact nomatch hcall
      | _ => exact nomatch hcall
  · rintro ⟨caller, config, hmem, henabled⟩
    exact ⟨caller, .inr (List.mem_filterMap.mpr ⟨_, hmem, if_pos henabled⟩)⟩

/-- What a run has printed and registered. -/
structure Told (calls : List Call) (s : State) : Prop where
  printed_le : s.printed.length ≤ 1
  printed_of : ∀ text ∈ s.printed, ∃ caller config, .activate caller config true ∈ calls ∧
    isMuted config = true ∧ text = warningText config
  printed_iff : s.AtRest → (∀ caller config, .activate caller config false ∉ calls) →
    (s.printed.length = 1 ↔ ∃ caller config, .activate caller config true ∈ calls ∧
      isMuted config = true)
  registered_le : s.registered ≤ 1
  registered_iff : s.AtRest →
    (s.registered = 1 ↔ ∃ caller config, .captureError caller config ∈ calls ∧
      config.isEnabled = true)

/-- However the threads come between each other, at most one warning is printed and the exit hook is
registered at most once; when no call is under way, each was if a call had reason to. -/
theorem guards_told {calls : List Call} {s : State} (h : Runs.exec step initial calls = some s) :
    Told calls s := by
  have hwarning := warning_told h
  have huploads := uploads_told h
  have hle := hwarning.finished_le
  have hfound : ∀ job ∈ s.warning.finished, isMuted job.1 = true ∧
      ∃ caller, .activate caller job.1 job.2 ∈ calls :=
    fun job hjob => wanted_warning.mp (hwarning.finished job hjob)
  refine ⟨(List.length_filterMap_le _ _).trans hle, fun text htext => ?_, fun hrest hmemory => ?_,
    huploads.finished_le, fun hrest => ?_⟩
  · obtain ⟨⟨config, memory⟩, hjob, htext⟩ := List.mem_filterMap.mp htext
    obtain ⟨hmuted, caller, hmem⟩ := hfound _ hjob
    cases memory with
    | false => exact nomatch htext
    | true => exact ⟨caller, config, hmem, hmuted, (Option.some.inj htext).symm⟩
  · have hall : s.printed.length = s.warning.finished.length := by
      refine List.filterMap_length_eq_length.mpr fun ⟨config, memory⟩ hjob => ?_
      obtain ⟨-, caller, hmem⟩ := hfound _ hjob
      cases memory with
      | false => exact absurd hmem (hmemory caller config)
      | true => rfl
    have hone : s.printed.length = 1 ↔ s.warning.finished ≠ [] := by
      rw [hall, ← List.length_pos_iff]
      omega
    rw [hone, hwarning.finished_iff fun caller => (hrest caller).1]
    constructor
    · rintro ⟨⟨config, memory⟩, hwanted⟩
      obtain ⟨hmuted, caller, hmem⟩ := wanted_warning.mp hwanted
      cases memory with
      | false => exact absurd hmem (hmemory caller config)
      | true => exact ⟨caller, config, hmem, hmuted⟩
    · rintro ⟨caller, config, hmem, hmuted⟩
      exact ⟨(config, true), wanted_warning.mpr ⟨hmuted, caller, hmem⟩⟩
  · have hone : s.registered = 1 ↔ s.uploads.finished ≠ [] := by
      have hle' := huploads.finished_le
      rw [State.registered, ← List.length_pos_iff]
      omega
    rw [hone, huploads.finished_iff fun caller => (hrest caller).2]
    exact ⟨fun ⟨_, hwanted⟩ => wanted_uploads.mp hwanted,
      fun hcalls => ⟨(), wanted_uploads.mpr hcalls⟩⟩

def onStagingCopy : Configuration :=
  { dsn := some (ascii "https://k@h"), environment := some (ascii "copy") }

/-- Both threads look before either of them takes the flag; then one of them captures where it
sends. -/
def race : List Call :=
  [.activate 0 onStagingCopy true, .activate 1 onStagingCopy true, .exchangeWarning 1,
    .exchangeWarning 0, .print 1, .captureError 1 { dsn := some (ascii "https://k@h") },
    .exchangeUploads 1, .register 1]

theorem guards_told_race : ∃ s, Runs.exec step initial race = some s ∧ Told race s := by
  have hrun : Runs.exec step initial race = some _ := rfl
  exact ⟨_, hrun, guards_told hrun⟩

example : (Runs.exec step initial race).map (fun s => (s.printed.length, s.registered)) =
    some (1, 1) := by
  decide +kernel

end ForgeOps.Guards
