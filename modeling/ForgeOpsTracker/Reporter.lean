import ForgeOpsTracker.CrashStoreWrites
import ForgeOpsTracker.SignalReport

/-! One upload of the pending reports (`reporter.c`): what is sent and what is deleted, whatever
can be read and whatever the server answers, and that the steps of a pass over the crash store
come to the same. -/

namespace ForgeOps.Reporter
open Client CrashStore

/-- A path that `forgeops_crash_store_pending_paths` returned, and what its turn brings: whether
its file can be read, the time, and the status that a delivery of it comes back with. -/
structure Listed where
  path : Bytes
  readable : Bool
  now : Nat
  status : Int
  deriving DecidableEq, Repr

/-- What a pass leaves of the directory, and the paths and payloads it tried to deliver. -/
structure Upload where
  disk : Disk
  attempts : List (Bytes × Bytes)
  deriving DecidableEq, Repr

/-- What the file at the path holds, if it can be opened and read. -/
def contentOf (disk : Disk) (report : Listed) : Option Bytes :=
  if report.readable then
    (disk.lookup report.path).map fun file => ((disk.files[file]?).map File.content).getD []
  else none

/-- `forgeops_crash_store_read`, as a C string. -/
def crashStoreRead (disk : Disk) (report : Listed) : Option Bytes :=
  (contentOf disk report).map fun content => content.takeWhile (· ≠ 0)

/-- `forgeops_signal_handler_complete_json` -/
def signalHandlerCompleteJson (config : Configuration)
    (user : List (Bytes × Option Bytes)) (disk : Disk) (report : Listed) : Option Bytes :=
  (contentOf disk report).map fun content =>
    SignalReport.completeJson config content report.now user

section
variable (config : Configuration) (user : List (Bytes × Option Bytes)) (stopAtFirstFailure : Bool)

def payloadOf (disk : Disk) (report : Listed) : Option Bytes :=
  if hasSuffix report.path (ascii ".txt") then signalHandlerCompleteJson config user disk report
  else crashStoreRead disk report

/-- The loop over the paths. -/
def uploadEach : List Listed → Upload → Upload
  | [], upload => upload
  | report :: rest, upload =>
    match payloadOf config user upload.disk report with
    | none => uploadEach rest { upload with disk := upload.disk.remove report.path }
    | some payload =>
      let outcome := deliveryOutcomeForStatus report.status
      let attempted := { upload with attempts := upload.attempts ++ [(report.path, payload)] }
      let settled :=
        if outcome = .failed then attempted
        else { attempted with disk := attempted.disk.remove report.path }
      if outcome = .failed ∧ stopAtFirstFailure then settled else uploadEach rest settled

/-- `paths` is what `forgeops_crash_store_pending_paths` returned, and `disk` the directory after
it. -/
def uploadPendingReportsUntilFailure (paths : Option (List Listed)) (disk : Disk) : Upload :=
  if config.isEnabled then
    match paths with
    | none => ⟨disk, []⟩
    | some paths => uploadEach config user stopAtFirstFailure paths ⟨disk, []⟩
  else ⟨disk, []⟩

/-! ## What is to become of a report -/

inductive Verdict
  | unreadable
  | answered (outcome : DeliveryOutcome)
  deriving DecidableEq, Repr

def Listed.verdict (disk : Disk) (report : Listed) : Verdict :=
  if (payloadOf config user disk report).isSome then
    .answered (deliveryOutcomeForStatus report.status)
  else .unreadable

def Listed.fails (disk : Disk) (report : Listed) : Bool :=
  report.verdict config user disk = .answered .failed

/-- The reports whose turn comes. -/
def reached (disk : Disk) : List Listed → List Listed
  | [] => []
  | report :: rest =>
    if report.fails config user disk ∧ stopAtFirstFailure then [report]
    else report :: reached disk rest

/-- The path and the payload of a report that can be read. -/
def Listed.attempt (disk : Disk) (report : Listed) : Option (Bytes × Bytes) :=
  (payloadOf config user disk report).map fun payload => (report.path, payload)

/-- The reports that are deleted. -/
def deleted (disk : Disk) (reports : List Listed) : List Listed :=
  (reached config user stopAtFirstFailure disk reports).filter fun report =>
    !report.fails config user disk

end

/-! ## Removing paths -/

theorem lookup_remove (disk : Disk) (path other : Bytes) :
    (disk.remove path).lookup other = if other = path then none else disk.lookup other := by
  unfold Disk.remove Disk.lookup
  rw [List.find?_filter]
  split
  · rename_i heq
    subst heq
    rw [List.find?_eq_none.mpr fun e _ => by simp]
    rfl
  · rename_i hne
    refine congrArg _ (congrArg (List.find? · _) (funext fun e => ?_))
    by_cases he : e.1 = other
    · simp [he, hne]
    · simp [he]

theorem remove_of_lookup {disk : Disk} {path : Bytes} (h : disk.lookup path = none) :
    disk.remove path = disk := by
  have hkept : (disk.entries.filter fun e => e.1 ≠ path) = disk.entries :=
    List.filter_eq_self.mpr fun e he => decide_eq_true (lookup_none h e he)
  rw [Disk.remove, hkept]

/-- What is left when the reports are deleted. -/
def removeEach (disk : Disk) (reports : List Listed) : Disk :=
  reports.foldl (fun disk report => disk.remove report.path) disk

theorem lookup_removeEach (disk : Disk) (reports : List Listed) (path : Bytes) :
    (removeEach disk reports).lookup path =
      if path ∈ reports.map Listed.path then none else disk.lookup path := by
  unfold removeEach
  induction reports generalizing disk with
  | nil => rfl
  | cons report rest ih =>
    rw [List.foldl_cons, ih, lookup_remove]
    grind

theorem removeEach_files (disk : Disk) (reports : List Listed) :
    (removeEach disk reports).files = disk.files := by
  unfold removeEach
  induction reports generalizing disk with
  | nil => rfl
  | cons report rest ih => exact ih (disk.remove report.path)

/-! ## One turn and all turns -/

section
variable {config : Configuration} {user : List (Bytes × Option Bytes)} {stop : Bool}

/-- Deleting a report leaves the others as they are. -/
theorem payloadOf_remove (disk : Disk) {path : Bytes} {report : Listed} (h : report.path ≠ path) :
    payloadOf config user (disk.remove path) report = payloadOf config user disk report := by
  have hcontent : contentOf (disk.remove path) report = contentOf disk report := by
    rw [contentOf, lookup_remove, if_neg h]
    rfl
  rw [payloadOf, payloadOf, signalHandlerCompleteJson, signalHandlerCompleteJson, crashStoreRead,
    crashStoreRead, hcontent]

theorem uploadEach_eq (disk : Disk) (reports : List Listed) (upload : Upload)
    (hdistinct : (reports.map Listed.path).Nodup)
    (hsame : ∀ report ∈ reports, payloadOf config user upload.disk report =
      payloadOf config user disk report) :
    uploadEach config user stop reports upload =
      { disk := removeEach upload.disk (deleted config user stop disk reports)
        attempts := upload.attempts ++
          (reached config user stop disk reports).filterMap
            (Listed.attempt config user disk) } := by
  induction reports generalizing upload with
  | nil => simp [uploadEach, reached, deleted, removeEach]
  | cons report rest ih =>
    obtain ⟨hnew, hrest⟩ := List.nodup_cons.mp hdistinct
    have hkept : ∀ other ∈ rest,
        payloadOf config user upload.disk other = payloadOf config user disk other :=
      fun other hother => hsame other (List.mem_cons_of_mem _ hother)
    have hremoved : ∀ other ∈ rest,
        payloadOf config user (upload.disk.remove report.path) other =
        payloadOf config user disk other := by
      intro other hother
      have hne : other.path ≠ report.path := fun heq => hnew (List.mem_map.mpr ⟨other, hother, heq⟩)
      rw [payloadOf_remove _ hne]
      exact hkept other hother
    have hhead := hsame report List.mem_cons_self
    cases hpayload : payloadOf config user disk report with
    | none =>
      have hverdict : report.fails config user disk = false := by
        simp [Listed.fails, Listed.verdict, hpayload]
      rw [uploadEach, hhead, hpayload]
      dsimp only
      rw [ih _ hrest hremoved]
      simp [reached, deleted, removeEach, hverdict, Listed.attempt, hpayload]
    | some payload =>
      by_cases hfailed : deliveryOutcomeForStatus report.status = .failed
      · have hverdict : report.fails config user disk = true := by
          simp [Listed.fails, Listed.verdict, hpayload, hfailed]
        rw [uploadEach, hhead, hpayload]
        dsimp only
        rw [if_pos hfailed]
        cases stop with
        | true => simp [hfailed, reached, deleted, removeEach, hverdict, Listed.attempt, hpayload]
        | false =>
          rw [if_neg (by simp),
            ih { upload with attempts := upload.attempts ++ [(report.path, payload)] } hrest hkept]
          simp [reached, deleted, removeEach, hverdict, Listed.attempt, hpayload]
      · have hverdict : report.fails config user disk = false := by
          simp [Listed.fails, Listed.verdict, hpayload, hfailed]
        rw [uploadEach, hhead, hpayload]
        dsimp only
        rw [if_neg hfailed, if_neg fun h => hfailed h.1, ih _ hrest hremoved]
        simp [reached, deleted, removeEach, hverdict, Listed.attempt, hpayload]

/-! ## The whole pass -/

theorem reached_initial (disk : Disk) (reports : List Listed) :
    reached config user stop disk reports <+: reports := by
  induction reports with
  | nil => exact List.nil_prefix
  | cons report rest ih =>
    rw [reached]
    split
    · exact List.prefix_cons_iff.mpr (.inr ⟨[], rfl, List.nil_prefix⟩)
    · exact List.prefix_cons_iff.mpr (.inr ⟨_, rfl, ih⟩)

theorem reached_all {disk : Disk} {reports : List Listed}
    (h : stop = false ∨ ∀ report ∈ reports, report.fails config user disk = false) :
    reached config user stop disk reports = reports := by
  induction reports with
  | nil => rfl
  | cons report rest ih =>
    have hgoes : ¬(report.fails config user disk = true ∧ stop = true) := by
      rintro ⟨hfails, hstop⟩
      rcases h with hnot | hnone
      · exact absurd (hstop.symm.trans hnot) (by decide)
      · exact absurd (hfails.symm.trans (hnone report List.mem_cons_self)) (by decide)
    rw [reached, if_neg hgoes,
      ih (h.imp_right fun hnone r hr => hnone r (List.mem_cons_of_mem _ hr))]

theorem reached_through {disk : Disk} {before later : List Listed} {report : Listed}
    (hbefore : ∀ other ∈ before, other.fails config user disk = false)
    (hreport : report.fails config user disk = true) :
    reached config user true disk (before ++ report :: later) = before ++ [report] := by
  induction before with
  | nil => rw [List.nil_append, reached, if_pos ⟨hreport, rfl⟩, List.nil_append]
  | cons other before ih =>
    have hother := hbefore other List.mem_cons_self
    rw [List.cons_append, reached, if_neg fun h => absurd (hother.symm.trans h.1) (by decide),
      ih fun r hr => hbefore r (List.mem_cons_of_mem _ hr), List.cons_append]

theorem fails_eq_false {disk : Disk} {report : Listed}
    (h : report.verdict config user disk ≠ .answered .failed) :
    report.fails config user disk = false := decide_eq_false h

theorem attempt_path {disk : Disk} {report : Listed} {attempt : Bytes × Bytes}
    (h : report.attempt config user disk = some attempt) : attempt.1 = report.path := by
  obtain ⟨payload, -, rfl⟩ := Option.map_eq_some_iff.mp h
  rfl

theorem attempts_sublist (disk : Disk) (reports : List Listed) :
    ((reports.filterMap (Listed.attempt config user disk)).map Prod.fst).Sublist
      (reports.map Listed.path) := by
  induction reports with
  | nil => exact .slnil
  | cons report rest ih =>
    cases hattempt : report.attempt config user disk with
    | none =>
      rw [List.filterMap_cons_none hattempt]
      exact ih.cons _
    | some attempt =>
      rw [List.filterMap_cons_some hattempt, List.map_cons, List.map_cons, attempt_path hattempt]
      exact ih.cons_cons _

theorem mem_deleted {disk : Disk} {reports : List Listed}
    (hdistinct : (reports.map Listed.path).Nodup) {report : Listed} (hreport : report ∈ reports) :
    report.path ∈ (deleted config user stop disk reports).map Listed.path ↔
      report ∈ reached config user stop disk reports ∧ report.verdict config user disk ≠
        .answered .failed := by
  have hsubset : ∀ other ∈ reached config user stop disk reports, other ∈ reports :=
    fun other hother => (reached_initial disk reports).subset hother
  rw [List.mem_map]
  constructor
  · rintro ⟨other, hother, hpath⟩
    obtain ⟨hin, hkept⟩ := List.mem_filter.mp hother
    obtain rfl := List.inj_on_of_nodup_map hdistinct (hsubset other hin) hreport hpath
    exact ⟨hin, by simpa [Listed.fails] using hkept⟩
  · rintro ⟨hin, hverdict⟩
    exact ⟨report, List.mem_filter.mpr ⟨hin, by simpa [Listed.fails] using hverdict⟩, rfl⟩

end

/-- A pass over some reports: whose turn came, what was sent, and what is gone afterwards. -/
structure PassOver (config : Configuration) (user : List (Bytes × Option Bytes))
    (stop : Bool) (disk : Disk) (reports reached : List Listed) (result : Upload) : Prop where
  everyone : stop = false → reached = reports
  untroubled : (∀ report ∈ reports, report.verdict config user disk ≠ .answered .failed) →
    reached = reports
  throughFirst : stop = true → ∀ before report later, reports = before ++ report :: later →
    (∀ other ∈ before, other.verdict config user disk ≠ .answered .failed) →
    report.verdict config user disk = .answered .failed → reached = before ++ [report]
  attempts : result.attempts = reached.filterMap (Listed.attempt config user disk)
  once : (result.attempts.map Prod.fst).Nodup
  listed : ∀ report ∈ reports, result.disk.lookup report.path =
    if report ∈ reached ∧ report.verdict config user disk ≠ .answered .failed then none
    else disk.lookup report.path
  others : ∀ path, path ∉ reports.map Listed.path → result.disk.lookup path = disk.lookup path
  files : result.disk.files = disk.files

theorem upload_eq {config : Configuration} (henabled : config.isEnabled = true)
    (user : List (Bytes × Option Bytes)) (stop : Bool) (disk : Disk) {reports : List Listed}
    (hdistinct : (reports.map Listed.path).Nodup) :
    uploadPendingReportsUntilFailure config user stop (some reports) disk =
      { disk := removeEach disk (deleted config user stop disk reports)
        attempts := (reached config user stop disk reports).filterMap
          (Listed.attempt config user disk) } := by
  rw [uploadPendingReportsUntilFailure, if_pos henabled,
    uploadEach_eq disk reports ⟨disk, []⟩ hdistinct fun _ _ => rfl, List.nil_append]

/-- A pass that does not stop tries every report that can be read. -/
theorem attempts_upload {config : Configuration} (henabled : config.isEnabled = true)
    (user : List (Bytes × Option Bytes)) (disk : Disk) {reports : List Listed}
    (hdistinct : (reports.map Listed.path).Nodup) :
    (uploadPendingReportsUntilFailure config user false (some reports) disk).attempts =
      reports.filterMap (Listed.attempt config user disk) := by
  rw [upload_eq henabled user false disk hdistinct, reached_all (.inl rfl)]

/-- It keeps the reports whose delivery failed for now. -/
theorem lookup_upload {config : Configuration} (henabled : config.isEnabled = true)
    (user : List (Bytes × Option Bytes)) (disk : Disk) {reports : List Listed}
    (hdistinct : (reports.map Listed.path).Nodup) {report : Listed} (hreport : report ∈ reports) :
    (uploadPendingReportsUntilFailure config user false
      (some reports) disk).disk.lookup report.path =
      if report.verdict config user disk = .answered .failed then disk.lookup report.path
      else none := by
  rw [upload_eq henabled user false disk hdistinct, lookup_removeEach,
    if_congr (mem_deleted hdistinct hreport) rfl rfl, reached_all (.inl rfl)]
  simp only [hreport, true_and, ne_eq, ite_not]

theorem upload_passOver {config : Configuration} (henabled : config.isEnabled = true)
    (user : List (Bytes × Option Bytes)) (stop : Bool) (disk : Disk) {reports : List Listed}
    (hdistinct : (reports.map Listed.path).Nodup) :
    ∃ reached, PassOver config user stop disk reports reached
      (uploadPendingReportsUntilFailure config user stop (some reports) disk) := by
  have hresult := upload_eq henabled user stop disk hdistinct
  have hinitial := @reached_initial config user stop disk reports
  have hsubset : deleted config user stop disk reports ⊆ reports :=
    fun _ hreport => hinitial.subset (List.filter_sublist.subset hreport)
  refine ⟨reached config user stop disk reports, ?_⟩
  rw [hresult]
  constructor
  case everyone => exact fun hstop => reached_all (.inl hstop)
  case untroubled =>
    exact fun h => reached_all (.inr fun report hreport => fails_eq_false (h report hreport))
  case throughFirst =>
    rintro rfl before report later rfl hbefore hreport
    exact reached_through (fun other hother => fails_eq_false (hbefore other hother))
      (decide_eq_true hreport)
  case attempts => rfl
  case once => exact ((attempts_sublist disk _).trans (hinitial.sublist.map _)).nodup hdistinct
  case listed =>
    intro report hreport
    rw [lookup_removeEach]
    exact if_congr (mem_deleted hdistinct hreport) rfl rfl
  case others =>
    intro path hpath
    rw [lookup_removeEach, if_neg fun hin => hpath (List.map_subset _ hsubset hin)]
  case files => exact removeEach_files disk _

/-- Of five reports the second cannot be read, the third is rejected and the fourth fails for
now. -/
def fiveReports : List Listed :=
  [⟨ascii "a.json", true, 0, 202⟩, ⟨ascii "b.json", false, 0, 202⟩, ⟨ascii "c.json", true, 0, 422⟩,
    ⟨ascii "d.json", true, 0, 503⟩, ⟨ascii "e.json", true, 0, 202⟩]

def fiveFiles : Disk where
  files := [⟨ascii "A", 1, 0⟩, ⟨ascii "B", 2, 0⟩, ⟨ascii "C", 3, 0⟩, ⟨ascii "D", 4, 0⟩,
    ⟨ascii "E", 5, 0⟩]
  entries := (fiveReports.map Listed.path).zipIdx

theorem upload_passOver_five :
    ∃ reached, PassOver { dsn := some (ascii "https://k@h") } [] true fiveFiles fiveReports reached
      (uploadPendingReportsUntilFailure { dsn := some (ascii "https://k@h") } [] true
        (some fiveReports) fiveFiles) :=
  upload_passOver (by decide) [] true fiveFiles (by decide)

example :
    uploadPendingReportsUntilFailure { dsn := some (ascii "https://k@h") } [] true
      (some fiveReports) fiveFiles =
      { disk := { fiveFiles with entries := [(ascii "d.json", 3), (ascii "e.json", 4)] }
        attempts := [(ascii "a.json", ascii "A"), (ascii "c.json", ascii "C"),
          (ascii "d.json", ascii "D")] } := by
  decide

/-! ## The pass among the steps of the store -/

/-- The paths of distinct reports are listed as distinct paths. -/
theorem listed_nodup {reports : List Pending} (h : (reports.map Pending.path).Nodup) (now : Nat) :
    (pendingPaths reports now).listed.Nodup := by
  have hkept : (((reports.filter fun p => ¬tooOld now p.modifiedAt).insertionSort Pending.le).map
      Pending.path).Nodup := by
    rw [((List.perm_insertionSort Pending.le _).map Pending.path).nodup_iff]
    exact h.sublist (List.filter_sublist.map _)
  exact hkept.sublist ((List.drop_sublist _ _).map _)

theorem payloadOf_isSome {config : Configuration} {user : List (Bytes × Option Bytes)} {disk : Disk}
    {report : Listed} :
    (payloadOf config user disk report).isSome =
      (report.readable && (disk.lookup report.path).isSome) := by
  have hcontent : (contentOf disk report).isSome =
      (report.readable && (disk.lookup report.path).isSome) := by
    unfold contentOf
    cases report.readable <;> simp
  rw [← hcontent, payloadOf]
  split
  · rw [signalHandlerCompleteJson, Option.isSome_map]
  · rw [crashStoreRead, Option.isSome_map]

/-- The store with a pass that still has some paths to send. -/
def withPaths (s : State) (k : Nat) (stop : Bool) (paths : List Bytes) (disk : Disk) : State :=
  { s.setPass k ⟨[], paths, none, stop⟩ with disk := disk }

theorem withPaths_withPaths (s : State) (k : Nat) (stop : Bool) (paths paths' : List Bytes)
    (disk disk' : Disk) :
    withPaths (withPaths s k stop paths disk) k stop paths' disk' =
      withPaths s k stop paths' disk' := by
  simp only [withPaths, State.setPass, List.set_set]

theorem withPaths_self {s : State} {k : Nat} {stop : Bool} {paths : List Bytes}
    (hk : s.passes[k]? = some ⟨[], paths, none, stop⟩) : withPaths s k stop paths s.disk = s := by
  obtain ⟨hlt, hpass⟩ := List.getElem?_eq_some_iff.mp hk
  rw [withPaths, State.setPass, ← hpass, List.set_getElem_self hlt]

section
variable {config : Configuration} {user : List (Bytes × Option Bytes)} {stop : Bool}
  {s : State} {k : Nat} {report : Listed} {paths : List Bytes}

theorem step_read_unreadable (hk : s.passes[k]? = some ⟨[], report.path :: paths, none, stop⟩)
    (hpayload : payloadOf config user s.disk report = none) :
    step s (.read k report.readable) =
      some (withPaths s k stop paths (s.disk.remove report.path)) := by
  have hread : (report.readable && (s.disk.lookup report.path).isSome) = false := by
    rw [← @payloadOf_isSome config user, hpayload]
    rfl
  simp only [step, hk, Option.bind_some, stepPass]
  cases hlookup : s.disk.lookup report.path with
  | none =>
    rw [remove_of_lookup hlookup]
    rfl
  | some file =>
    have hnot : report.readable = false := by simpa [hlookup] using hread
    simp only [hnot, Bool.false_eq_true, if_false]
    rfl

theorem exec_read_settle (hk : s.passes[k]? = some ⟨[], report.path :: paths, none, stop⟩)
    {payload : Bytes} (hpayload : payloadOf config user s.disk report = some payload) :
    Runs.exec step s [.read k report.readable, .settle k report.status] =
      some
        (if deliveryOutcomeForStatus report.status = .failed then
          withPaths s k stop (if stop then [] else paths) s.disk
        else withPaths s k stop paths (s.disk.remove report.path)) := by
  have hlt := (List.getElem?_eq_some_iff.mp hk).1
  have hread : (report.readable && (s.disk.lookup report.path).isSome) = true := by
    rw [← @payloadOf_isSome config user, hpayload]
    rfl
  obtain ⟨hreadable, hsome⟩ := Bool.and_eq_true_iff.mp hread
  obtain ⟨file, hlookup⟩ := Option.isSome_iff_exists.mp hsome
  simp only [Runs.exec_cons, Runs.exec_nil, step, hk, Option.bind_some, stepPass, hlookup,
    hreadable, if_true, State.setPass, List.getElem?_set_self hlt, List.set_set]
  split <;> rfl

end

theorem uploadEach_reachable {config : Configuration} {user : List (Bytes × Option Bytes)}
    {stop : Bool} {k : Nat} (reports : List Listed) (s : State) (attempts : List (Bytes × Bytes))
    (hk : s.passes[k]? = some ⟨[], reports.map Listed.path, none, stop⟩) :
    Runs.Reachable step s
      (withPaths s k stop [] (uploadEach config user stop reports ⟨s.disk, attempts⟩).disk) := by
  induction reports generalizing s attempts with
  | nil =>
    have hdone := withPaths_self hk
    rw [List.map_nil] at hdone
    rw [uploadEach, hdone]
    exact .refl s
  | cons report rest ih =>
    have hlt := (List.getElem?_eq_some_iff.mp hk).1
    have hgoes : ∀ disk, (withPaths s k stop (rest.map Listed.path) disk).passes[k]? =
        some ⟨[], rest.map Listed.path, none, stop⟩ := fun disk => List.getElem?_set_self hlt
    have hrest : ∀ disk attempts, Runs.Reachable step
        (withPaths s k stop (rest.map Listed.path) disk)
        (withPaths s k stop [] (uploadEach config user stop rest ⟨disk, attempts⟩).disk) := by
      intro disk attempts
      rw [← withPaths_withPaths s k stop (rest.map Listed.path) [] disk]
      exact ih _ attempts (hgoes disk)
    rw [uploadEach]
    cases hpayload : payloadOf config user s.disk report with
    | none => exact .head (step_read_unreadable hk hpayload) (hrest _ attempts)
    | some payload =>
      have hturn := exec_read_settle hk hpayload
      dsimp only
      by_cases hfailed : deliveryOutcomeForStatus report.status = .failed
      · rw [if_pos hfailed] at hturn ⊢
        cases stop with
        | true =>
          rw [if_pos ⟨hfailed, rfl⟩]
          exact ⟨_, hturn⟩
        | false =>
          rw [if_neg fun h => Bool.false_ne_true h.2]
          exact .trans ⟨_, hturn⟩ (hrest _ _)
      · rw [if_neg hfailed] at hturn ⊢
        rw [if_neg fun h => hfailed h.1]
        exact .trans ⟨_, hturn⟩ (hrest _ _)

/-- The old and excess reports are deleted before the others are sent. -/
theorem prune_reachable {k : Nat} (doomed : List Bytes) (s : State)
    {paths : List Bytes} {stop : Bool} (hk : s.passes[k]? = some ⟨doomed, paths, none, stop⟩) :
    Runs.Reachable step s (withPaths s k stop paths (doomed.foldl Disk.remove s.disk)) := by
  induction doomed generalizing s with
  | nil =>
    rw [List.foldl_nil, withPaths_self hk]
    exact .refl s
  | cons path doomed ih =>
    have hlt := (List.getElem?_eq_some_iff.mp hk).1
    have hstep : step s (.prune k) =
        some { s.setPass k ⟨doomed, paths, none, stop⟩ with disk := s.disk.remove path } := by
      simp only [step, hk, Option.bind_some, stepPass]
    refine .head hstep ?_
    have hnext := ih { s.setPass k ⟨doomed, paths, none, stop⟩ with disk := s.disk.remove path }
      (List.getElem?_set_self hlt)
    simpa only [withPaths, State.setPass, List.set_set, List.foldl_cons] using hnext

/-- The upload is a run of the store: a listing, the deletions it calls for, and the turns of the
reports it lists. -/
theorem upload_reachable {config : Configuration} (henabled : config.isEnabled = true)
    (user : List (Bytes × Option Bytes)) (stop : Bool) (s : State) {entries : List (Bytes × Nat)}
    {now : Nat} (hentries : entries.Perm s.disk.entries) {reports : List Listed}
    (hlisted : reports.map Listed.path = (pendingPaths (found s.disk entries) now).listed) :
    let pruned := (pendingPaths (found s.disk entries) now).deleted.foldl Disk.remove s.disk
    Runs.Reachable step s
      { s with
        disk := (uploadPendingReportsUntilFailure config user stop (some reports) pruned).disk
        passes := s.passes ++ [⟨[], [], none, stop⟩] } := by
  intro pruned
  have hlist : step s (.list entries now stop) =
      some { s with
        passes := s.passes ++ [⟨(pendingPaths (found s.disk entries) now).deleted,
          reports.map Listed.path, none, stop⟩] } := by
    simp only [step, if_pos hentries, hlisted]
  refine .head hlist ?_
  refine .trans (prune_reachable _ _ List.getElem?_concat_length) ?_
  have hpass := @uploadEach_reachable config user stop s.passes.length reports
    (withPaths { s with passes := s.passes ++
      [⟨(pendingPaths (found s.disk entries) now).deleted, reports.map Listed.path, none, stop⟩] }
      s.passes.length stop (reports.map Listed.path) pruned) [] (by simp [withPaths, State.setPass])
  rw [withPaths_withPaths] at hpass
  rw [uploadPendingReportsUntilFailure, if_pos henabled]
  simpa [withPaths, State.setPass] using hpass

end ForgeOps.Reporter
