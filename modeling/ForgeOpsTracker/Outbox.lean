import ForgeOpsTracker.CrashDirectory
import ForgeOpsTracker.CrashStoreOrder
import ForgeOpsTracker.Reporter

/-! What becomes of a report. One process after another writes reports into the directory, crashes
and uploads what is pending, one call at a time. A file is never written again, so files by number
are the reports ever written, and the directory leads to those still pending: every other one was
taken by the server, or listed as too old or beyond the newest twenty, or could not be read. -/

namespace ForgeOps.Outbox
open Client CrashStore Reporter

/-- What was to be written and how much of it reached the file, or what a dying process left. -/
inductive Report
  | event (payload : Bytes) (accepted : Nat)
  | crash (text : Bytes)
  deriving DecidableEq

namespace Report

def content : Report → Bytes
  | event payload accepted => payload.take accepted
  | crash text => text

def isCrash : Report → Bool
  | event _ _ => false
  | crash _ => true

/-- What an upload sends of it. -/
def sent (config : Configuration) (user : List (Bytes × Option Bytes)) (now : Nat) : Report → Bytes
  | event payload accepted => payload.take accepted
  | crash text => SignalReport.completeJson config text now user

end Report

structure Attempt where
  file : Nat
  payload : Bytes
  outcome : DeliveryOutcome
  deriving DecidableEq

/-- A report that a listing deleted, and the reports it listed. -/
structure Pruned where
  file : Nat
  now : Nat
  kept : List Nat
  deriving DecidableEq

/-- `counter` is the running process's static counter; all but that and the directory is history. -/
structure State where
  counter : Nat
  disk : Disk
  reports : List Report
  attempts : List Attempt
  pruned : List Pruned
  unreadable : List Nat
  deriving DecidableEq

def initial : State := ⟨0, ⟨[], []⟩, [], [], [], []⟩

def signalPath (directory : Bytes) (signalNumber now : Nat) : Bytes :=
  directory ++ 47 :: CrashDirectory.reportName signalNumber now

/-- The file the path leads to. -/
def fileAt (disk : Disk) (path : Bytes) : Nat := (disk.lookup path).getD 0

/-- A whole new content for the file at a path. -/
def State.put (s : State) (path : Bytes) (now : Nat) (report : Report) : State :=
  let opened := s.disk.openForWriting path now s.reports.length
  { s with
    disk := opened.1.store opened.2 0 report.content now
    reports := s.reports ++ [report] }

/-! ## Calls -/

inductive Call
  | write (payload : Bytes) (now : Nat) (opens : Bool) (accepted : Nat)
  | crash (signalNumber now : Nat) (opens : Bool) (text : Bytes)
  | restart
  | upload (config : Configuration) (user : List (Bytes × Option Bytes)) (stopAtFirstFailure : Bool)
    (entries : List (Bytes × Nat)) (now : Nat) (readable : Bytes → Bool) (status : Bytes → Int)

section
variable (directory : Bytes)

/-- `forgeops_crash_store_write` once its directory is there; without one it changes nothing. -/
def write (s : State) (payload : Bytes) (now : Nat) (opens : Bool) (accepted : Nat) : State :=
  let path := eventPath directory now s.counter
  let counted := { s with counter := s.counter + 1 }
  if opens then counted.put path now (.event payload accepted) else counted

/-- `forgeops_signal_handler_write_report`, and the process is gone. -/
def crash (s : State) (signalNumber now : Nat) (opens : Bool) (text : Bytes) : State :=
  let ended := { s with counter := 0 }
  if opens then ended.put (signalPath directory signalNumber now) now (.crash text) else ended

end

/-- The paths of a listing, with what each of their turns brings. -/
def turns (paths : List Bytes) (now : Nat) (readable : Bytes → Bool)
    (status : Bytes → Int) : List Listed :=
  paths.map fun path => ⟨path, readable path, now, status path⟩

/-- What the turns leave of the directory, after the reports that the listing deletes. -/
def uploaded (config : Configuration) (user : List (Bytes × Option Bytes))
    (stopAtFirstFailure : Bool) (s : State) (listing : Listing) (now : Nat)
    (readable : Bytes → Bool) (status : Bytes → Int) : Upload :=
  uploadPendingReportsUntilFailure config user stopAtFirstFailure
    (if listing.listed = [] then none else some (turns listing.listed now readable status))
    (listing.deleted.foldl Disk.remove s.disk)

/-- `forgeops_upload_pending_reports_until_failure` on the entries that the listing had memory
for. -/
def upload (config : Configuration) (user : List (Bytes × Option Bytes)) (stopAtFirstFailure : Bool)
    (entries : List (Bytes × Nat)) (now : Nat) (readable : Bytes → Bool) (status : Bytes → Int)
    (s : State) : State :=
  if config.isEnabled then
    let listing := pendingPaths (found s.disk entries) now
    let result := uploaded config user stopAtFirstFailure s listing now readable status
    { s with
      disk := result.disk
      attempts := s.attempts ++ result.attempts.map fun attempt =>
        ⟨fileAt s.disk attempt.1, attempt.2, deliveryOutcomeForStatus (status attempt.1)⟩
      pruned := s.pruned ++ listing.deleted.map fun path =>
        ⟨fileAt s.disk path, now, listing.listed.map (fileAt s.disk)⟩
      unreadable := s.unreadable ++ (listing.listed.filter fun path =>
        !readable path && (result.disk.lookup path).isNone).map (fileAt s.disk) }
  else s

/-- A payload is a C string, and no more of it is written than there is. -/
def step (directory : Bytes) (s : State) : Call → Option State
  | .write payload now opens accepted =>
    if accepted ≤ payload.length ∧ 0 ∉ payload then
      some (write directory s payload now opens accepted)
    else none
  | .crash signalNumber now opens text => some (crash directory s signalNumber now opens text)
  | .restart => some { s with counter := 0 }
  | .upload config user stop entries now readable status =>
    if entries.Subperm s.disk.entries then
      some (upload config user stop entries now readable status s)
    else none

/-- What is opened is no pending report's path. -/
def OpensNew (directory : Bytes) (s : State) : Call → Prop
  | .write _ now opens _ => opens = true → s.disk.lookup (eventPath directory now s.counter) = none
  | .crash signalNumber now opens _ =>
    opens = true → s.disk.lookup (signalPath directory signalNumber now) = none
  | _ => True

/-! ## What becomes of a report -/

namespace State

def pending (s : State) : List Nat := s.disk.entries.map Prod.snd

/-- Delivered, or rejected for good. -/
def settled (s : State) : List Nat :=
  (s.attempts.filter fun a => a.outcome ≠ .failed).map Attempt.file

def modifiedAt (s : State) (file : Nat) : Nat := ((s.disk.files[file]?).map File.modifiedAt).getD 0

end State

/-- Every report written is pending, settled, pruned or unreadable, and only one of these. -/
structure Accounted (s : State) : Prop where
  fates : (s.pending ++ s.settled ++ s.pruned.map Pruned.file ++ s.unreadable).Perm
    (List.range s.reports.length)
  contents : s.disk.files.map File.content = s.reports.map Report.content
  sent : ∀ a ∈ s.attempts, ∃ report config user now, s.reports[a.file]? = some report ∧
    a.payload = report.sent config user now
  final : s.attempts.Pairwise fun a b => a.file = b.file → a.outcome = .failed
  pruned : ∀ p ∈ s.pruned, tooOld p.now (s.modifiedAt p.file) ∨
    p.kept.length = maxPending ∧ p.kept.Nodup ∧ ∀ file ∈ p.kept, s.modifiedAt p.file ≤
    s.modifiedAt file

/-- What the directory shows of it. -/
structure Sound (s : State) : Prop extends Accounted s where
  paths : (s.disk.entries.map Prod.fst).Nodup
  kinds : ∀ e ∈ s.disk.entries, ∃ report, s.reports[e.2]? = some report ∧
    hasSuffix e.1 (ascii ".txt") = report.isCrash
  strings : ∀ payload accepted, .event payload accepted ∈ s.reports → 0 ∉ payload

theorem initial_sound : Sound initial where
  fates := List.Perm.refl _
  contents := rfl
  sent := by simp [initial]
  final := List.Pairwise.nil
  pruned := by simp [initial]
  paths := List.nodup_nil
  kinds := by simp [initial]
  strings := by simp [initial]

/-! ## Writing -/

theorem eventPath_not_txt (directory : Bytes) (second counter : Nat) :
    hasSuffix (eventPath directory second counter) (ascii ".txt") = false := by
  by_contra h
  rw [Bool.not_eq_false, hasSuffix, List.isSuffixOf_iff_suffix] at h
  have hjson := eventPath_json directory second counter
  rw [hasSuffix, List.isSuffixOf_iff_suffix] at hjson
  have hshort := List.suffix_of_suffix_length_le h hjson (by decide)
  exact absurd hshort (by decide)

theorem signalPath_txt (directory : Bytes) (signalNumber now : Nat) :
    hasSuffix (signalPath directory signalNumber now) (ascii ".txt") = true := by
  rw [hasSuffix, List.isSuffixOf_iff_suffix, signalPath, CrashDirectory.reportName]
  exact ⟨directory ++ 47 :: (ascii "signal-" ++ decimal signalNumber ++ ascii "-" ++
    decimal now), by simp⟩

theorem put_new {s : State} {path : Bytes} (hnew : s.disk.lookup path = none) (now : Nat)
    (report : Report) : s.put path now report =
      { s with
        disk :=
          { files := s.disk.files ++ [⟨report.content, now, s.reports.length⟩]
            entries := s.disk.entries ++ [(path, s.disk.files.length)] }
        reports := s.reports ++ [report] } := by
  simp only [State.put, Disk.openForWriting, hnew]
  rw [store_whole s.disk ⟨[], now, s.reports.length⟩ path report.content now ⟨rfl, rfl⟩]

theorem Accounted.files_length {s : State} (h : Accounted s) :
    s.disk.files.length = s.reports.length := by
  have hlength := congrArg List.length h.contents
  simpa using hlength

theorem Accounted.file_lt {s : State} (h : Accounted s) {file : Nat}
    (hfile : file ∈ s.pending ++ s.settled ++ s.pruned.map Pruned.file ++ s.unreadable) :
    file < s.reports.length :=
  List.mem_range.mp (h.fates.mem_iff.mp hfile)

theorem Sound.put {s : State} (h : Sound s) {path : Bytes}
    (hnew : s.disk.lookup path = none) (now : Nat) (report : Report)
    (hkind : hasSuffix path (ascii ".txt") = report.isCrash)
    (hstring : ∀ payload accepted, report = .event payload accepted → 0 ∉ payload) :
    Sound (s.put path now report) := by
  have hlength := h.files_length
  have hold : ∀ {file r}, s.reports[file]? = some r → (s.reports ++ [report])[file]? =
      some r := fun hr => by
    rw [List.getElem?_append_left (List.getElem?_eq_some_iff.mp hr).1]
    exact hr
  rw [put_new hnew]
  constructor
  case toAccounted =>
    constructor
    case fates =>
      have hfates := h.fates
      rw [List.perm_iff_count] at hfates ⊢
      intro file
      have hcount := hfates file
      simp only [State.pending, State.settled, List.map_append, List.map_cons, List.map_nil,
        List.count_append, List.length_append, List.length_singleton, List.range_succ,
        hlength] at hcount ⊢
      omega
    case contents => simp [h.contents]
    case sent =>
      intro a ha
      obtain ⟨r, config, user, time, hr, hpayload⟩ := h.sent a ha
      exact ⟨r, config, user, time, hold hr, hpayload⟩
    case final => exact h.final
    case pruned =>
      intro p hp
      have hlt : p.file < s.disk.files.length :=
        hlength ▸ h.file_lt (by simp [List.mem_map_of_mem hp])
      have hsame : ∀ file < s.disk.files.length,
          (s.disk.files ++ [(⟨report.content, now, s.reports.length⟩ : File)])[file]? =
          s.disk.files[file]? :=
        fun file hfile => List.getElem?_append_left hfile
      simp only [State.modifiedAt, hsame p.file hlt]
      refine (h.pruned p hp).imp_right fun hkept => ⟨hkept.1, hkept.2.1, fun file hfile => ?_⟩
      have hle := hkept.2.2 file hfile
      rcases Nat.lt_or_ge file s.disk.files.length with hin | hout
      · rw [hsame file hin]
        exact hle
      · rw [State.modifiedAt, State.modifiedAt, List.getElem?_eq_none hout] at hle
        exact Nat.le_trans hle (Nat.zero_le _)
  case paths =>
    rw [List.map_append, List.nodup_append]
    refine ⟨h.paths, List.nodup_singleton _, fun p hp q hq => ?_⟩
    obtain ⟨e, he, rfl⟩ := List.mem_map.mp hp
    rw [List.map_singleton, List.mem_singleton] at hq
    exact hq ▸ lookup_none hnew e he
  case kinds =>
    intro e he
    rcases List.mem_append.mp he with he | he
    · obtain ⟨r, hr, hsuffix⟩ := h.kinds e he
      exact ⟨r, hold hr, hsuffix⟩
    · obtain rfl := List.mem_singleton.mp he
      exact ⟨report, by rw [hlength, List.getElem?_concat_length], hkind⟩
  case strings =>
    intro payload accepted hmem
    rcases List.mem_append.mp hmem with hmem | hmem
    · exact h.strings payload accepted hmem
    · exact hstring payload accepted (List.mem_singleton.mp hmem).symm

theorem Sound.counter {s : State} (h : Sound s) (counter : Nat) :
    Sound { s with counter := counter } :=
  ⟨⟨h.fates, h.contents, h.sent, h.final, h.pruned⟩, h.paths, h.kinds, h.strings⟩

/-! ## A listing -/

theorem pendingPaths_perm (reports : List Pending) (now : Nat) :
    ((pendingPaths reports now).deleted ++ (pendingPaths reports now).listed).Perm
      (reports.map Pending.path) := by
  simp only [pendingPaths]
  rw [← List.map_append, List.append_assoc, List.take_append_drop]
  refine List.Perm.map _ ?_
  have hsplit := List.filter_append_perm (fun p : Pending => tooOld now p.modifiedAt) reports
  have hnot : reports.filter (fun p => decide ¬ tooOld now p.modifiedAt = true) =
      reports.filter fun p => !tooOld now p.modifiedAt := List.filter_congr fun p _ => by
    cases tooOld now p.modifiedAt <;> rfl
  rw [hnot]
  exact ((List.perm_insertionSort _ _).append_left _).trans hsplit

/-- What a listing deletes is too old, or twenty others are listed that are not older. -/
theorem pendingPaths_deleted {reports : List Pending} {now : Nat} {path : Bytes}
    (h : path ∈ (pendingPaths reports now).deleted) :
    ∃ p ∈ reports, p.path = path ∧ (tooOld now p.modifiedAt ∨
      (pendingPaths reports now).listed.length = maxPending ∧
        ∀ other ∈ (pendingPaths reports now).listed,
          ∃ q ∈ reports, q.path = other ∧ p.modifiedAt ≤ q.modifiedAt) := by
  obtain ⟨p, hp, rfl⟩ := List.mem_map.mp h
  simp only [pendingPaths]
  generalize hkept :
    (reports.filter fun p => decide ¬ tooOld now p.modifiedAt = true).insertionSort
      Pending.le = kept at hp
  have hsub : ∀ q ∈ kept, q ∈ reports := fun q hq => by
    rw [← hkept, List.mem_insertionSort] at hq
    exact (List.mem_filter.mp hq).1
  have hsorted : kept.Pairwise Pending.le := hkept ▸ List.pairwise_insertionSort _ _
  rcases List.mem_append.mp hp with hold | hexcess
  · exact ⟨p, (List.mem_filter.mp hold).1, rfl, .inl (List.mem_filter.mp hold).2⟩
  · refine ⟨p, hsub p (List.mem_of_mem_take hexcess), rfl, .inr ⟨?_, fun other hother => ?_⟩⟩
    · have hpos : kept.length - maxPending ≠ 0 := fun hzero => by simp [hzero] at hexcess
      rw [List.length_map, List.length_drop]
      omega
    · obtain ⟨q, hq, rfl⟩ := List.mem_map.mp hother
      refine ⟨q, hsub q (List.mem_of_mem_drop hq), rfl, ?_⟩
      rw [← List.take_append_drop (kept.length - maxPending) kept, List.pairwise_append] at hsorted
      rcases hsorted.2.2 p hexcess q hq with hlt | ⟨heq, -⟩
      · exact Nat.le_of_lt hlt
      · exact Nat.le_of_eq heq

theorem foldl_remove (disk : Disk) (paths : List Bytes) :
    paths.foldl Disk.remove disk =
      { disk with entries := disk.entries.filter fun e => e.1 ∉ paths } := by
  induction paths generalizing disk with
  | nil => simp
  | cons path paths ih =>
    rw [List.foldl_cons, ih, Disk.remove, List.filter_filter]
    refine congrArg (fun entries => { disk with entries := entries })
      (List.filter_congr fun e _ => ?_)
    by_cases he : e.1 = path <;> simp [he]

theorem lookup_foldl_remove (disk : Disk) (paths : List Bytes) (path : Bytes) :
    (paths.foldl Disk.remove disk).lookup path = if path ∈ paths then none
    else disk.lookup path := by
  induction paths generalizing disk with
  | nil => simp
  | cons other paths ih =>
    rw [List.foldl_cons, ih, lookup_remove]
    grind

theorem removeEach_eq (disk : Disk) (reports : List Listed) :
    removeEach disk reports = (reports.map Listed.path).foldl Disk.remove disk := by
  rw [removeEach, List.foldl_map]

theorem lookup_entry {disk : Disk} (hpaths : (disk.entries.map Prod.fst).Nodup) {e : Bytes × Nat}
    (he : e ∈ disk.entries) : disk.lookup e.1 = some e.2 := by
  have hsome : disk.lookup e.1 ≠ none := fun hnone => lookup_none hnone e he rfl
  obtain ⟨file, hfile⟩ := Option.ne_none_iff_exists'.mp hsome
  have hsame := List.inj_on_of_nodup_map hpaths (lookup_some hfile) he rfl
  rw [hfile, ← hsame]

theorem fileAt_entry {disk : Disk} (hpaths : (disk.entries.map Prod.fst).Nodup) {e : Bytes × Nat}
    (he : e ∈ disk.entries) : fileAt disk e.1 = e.2 := by
  rw [fileAt, lookup_entry hpaths he, Option.getD_some]

/-! ## The turns -/

section
variable {config : Configuration} {user : List (Bytes × Option Bytes)} {stop : Bool} {now : Nat}
  {readable : Bytes → Bool} {status : Bytes → Int}

theorem turns_path (paths : List Bytes) :
    (turns paths now readable status).map Listed.path = paths := by
  rw [turns, List.map_map]
  exact List.map_id _

theorem mem_turns {paths : List Bytes} {report : Listed}
    (h : report ∈ turns paths now readable status) :
    report.path ∈ paths ∧ report = ⟨report.path, readable report.path, now,
      status report.path⟩ := by
  obtain ⟨path, hpath, rfl⟩ := List.mem_map.mp h
  exact ⟨hpath, rfl⟩

/-- Those of the attempts that did not fail, by path. -/
theorem settled_attempts (disk : Disk) (reports : List Listed)
    (hstatus : ∀ report ∈ reports, report.status = status report.path) :
    ((reports.filterMap (Listed.attempt config user disk)).filter fun a =>
        deliveryOutcomeForStatus (status a.1) ≠ .failed).map Prod.fst =
      (reports.filter fun report => (payloadOf config user disk report).isSome &&
        deliveryOutcomeForStatus report.status ≠ .failed).map Listed.path := by
  induction reports with
  | nil => rfl
  | cons report reports ih =>
    have hrest := ih fun r hr => hstatus r (List.mem_cons_of_mem _ hr)
    have hhead := hstatus report List.mem_cons_self
    cases hpayload : payloadOf config user disk report with
    | none =>
      have hattempt : report.attempt config user disk = none := by
        rw [Listed.attempt, hpayload]
        rfl
      rw [List.filterMap_cons_none hattempt, List.filter_cons_of_neg (by simp [hpayload]), hrest]
    | some payload =>
      have hattempt : report.attempt config user disk = some (report.path, payload) := by
        rw [Listed.attempt, hpayload]
        rfl
      rw [List.filterMap_cons_some hattempt]
      by_cases hfailed : deliveryOutcomeForStatus (status report.path) = .failed
      · rw [List.filter_cons_of_neg (by simp [hfailed]),
          List.filter_cons_of_neg (by simp [hhead, hfailed]), hrest]
      · rw [List.filter_cons_of_pos (by simp [hfailed]),
          List.filter_cons_of_pos (by simp [hpayload, hhead, hfailed]), List.map_cons,
          List.map_cons, hrest]

end

/-! ## An upload -/

/-- A pass over the directory: what its paths have become. -/
structure Outcome (config : Configuration) (user : List (Bytes × Option Bytes)) (s : State)
    (listing : Listing) (now : Nat) (readable : Bytes → Bool) (status : Bytes → Int)
    (result : Upload) : Prop where
  files : result.disk.files = s.disk.files
  kept : ∃ gone : List Bytes, result.disk.entries = s.disk.entries.filter fun e => e.1 ∉ gone
  once : (result.attempts.map Prod.fst).Nodup
  attempts : ∀ a ∈ result.attempts, a.1 ∈ listing.listed ∧ payloadOf config user
    (listing.deleted.foldl Disk.remove s.disk) ⟨a.1, readable a.1, now, status a.1⟩ = some a.2
  fates : (s.disk.entries.map Prod.fst).Perm (result.disk.entries.map Prod.fst ++
    ((result.attempts.filter fun a => deliveryOutcomeForStatus (status a.1) ≠
      .failed).map Prod.fst) ++ listing.deleted ++
    listing.listed.filter fun path => !readable path && (result.disk.lookup path).isNone)

section
variable {config : Configuration} {user : List (Bytes × Option Bytes)} {stop : Bool} {now : Nat}
  {readable : Bytes → Bool} {status : Bytes → Int} {s : State} {listing : Listing}

/-- Whether a path's turn ends with its deletion. -/
def goes (readable : Bytes → Bool) (status : Bytes → Int) (path : Bytes) : Bool :=
  !(readable path && deliveryOutcomeForStatus (status path) = .failed)

theorem uploaded_eq (henabled : config.isEnabled = true) (hlisted : listing.listed.Nodup) :
    uploaded config user stop s listing now readable status =
      { disk := removeEach (listing.deleted.foldl Disk.remove s.disk) (deleted config user stop
          (listing.deleted.foldl Disk.remove s.disk) (turns listing.listed now readable status))
        attempts := (reached config user stop (listing.deleted.foldl Disk.remove s.disk)
          (turns listing.listed now readable status)).filterMap
            (Listed.attempt config user (listing.deleted.foldl Disk.remove s.disk)) } := by
  rw [uploaded]
  by_cases hempty : listing.listed = []
  · rw [if_pos hempty, uploadPendingReportsUntilFailure, if_pos henabled, hempty]
    rfl
  · rw [if_neg hempty, uploadPendingReportsUntilFailure, if_pos henabled]
    exact uploadEach_eq _ _ ⟨_, []⟩ (by rw [turns_path]; exact hlisted) fun _ _ => rfl

section
variable {disk : Disk} {turned : List Listed}

theorem deleted_paths
    (hread : ∀ report ∈ turned, (payloadOf config user disk report).isSome = readable report.path)
    (hstatus : ∀ report ∈ turned, report.status = status report.path) :
    (turned.filter fun report => !report.fails config user disk).map Listed.path =
      (turned.map Listed.path).filter (goes readable status) := by
  rw [List.filter_map]
  refine congrArg (List.map Listed.path) (List.filter_congr fun report hin => ?_)
  simp only [Listed.fails, Listed.verdict, hread report hin, hstatus report hin,
    Function.comp_apply, goes]
  cases readable report.path <;> simp

theorem settled_paths
    (hread : ∀ report ∈ turned, (payloadOf config user disk report).isSome = readable report.path)
    (hstatus : ∀ report ∈ turned, report.status = status report.path) :
    ((turned.filterMap (Listed.attempt config user disk)).filter fun a =>
        deliveryOutcomeForStatus (status a.1) ≠ .failed).map Prod.fst =
      ((turned.map Listed.path).filter (goes readable status)).filter readable := by
  rw [settled_attempts disk turned hstatus, List.filter_filter, List.filter_map]
  refine congrArg (List.map Listed.path) (List.filter_congr fun report hin => ?_)
  simp only [hread report hin, hstatus report hin, Function.comp_apply, goes]
  cases readable report.path <;> simp

end

/-- What is taken out of a list and what stays make up the list. -/
theorem perm_taken {all taken : List Bytes} (hall : all.Nodup) (htaken : taken.Nodup)
    (hsub : taken ⊆ all) : all.Perm ((all.filter fun path => path ∉ taken) ++ taken) := by
  have hrest : (all.filter fun path => !decide (path ∉ taken)).Perm taken := by
    refine (List.perm_ext_iff_of_nodup (hall.filter _) htaken).mpr fun path => ?_
    rw [List.mem_filter, decide_not, Bool.not_not, decide_eq_true_eq]
    exact ⟨And.right, fun hin => ⟨hsub hin, hin⟩⟩
  exact (List.filter_append_perm (fun path => decide (path ∉ taken)) all).symm.trans
    (hrest.append_left _)

/-- The listed paths that cannot be read and are gone. -/
theorem unreadable_perm {going : List Bytes} (hpaths : (s.disk.entries.map Prod.fst).Nodup)
    (hthere : listing.listed ⊆ s.disk.entries.map Prod.fst)
    (hdistinct : (listing.deleted ++ listing.listed).Nodup) (hgoing : going.Nodup)
    (hlisted : going ⊆ listing.listed) : (listing.listed.filter fun path => !readable path &&
      (((listing.deleted ++ going).foldl Disk.remove s.disk).lookup path).isNone).Perm
        (going.filter fun path => !readable path) := by
  rw [List.nodup_append] at hdistinct
  refine (List.perm_ext_iff_of_nodup (hdistinct.2.1.filter _) (hgoing.filter _)).mpr fun path => ?_
  rw [List.mem_filter, List.mem_filter, lookup_foldl_remove]
  constructor
  · rintro ⟨hpath, htest⟩
    obtain ⟨hread, hnone⟩ := Bool.and_eq_true_iff.mp htest
    refine ⟨?_, hread⟩
    by_contra hnot
    have hkeep : path ∉ listing.deleted ++ going := fun hin => (List.mem_append.mp hin).elim
      (fun hdel => hdistinct.2.2 _ hdel _ hpath rfl) hnot
    obtain ⟨e, he, rfl⟩ := List.mem_map.mp (hthere hpath)
    rw [if_neg hkeep, lookup_entry hpaths he] at hnone
    exact absurd hnone (by simp)
  · rintro ⟨hpath, hread⟩
    exact ⟨hlisted hpath, by rw [if_pos (List.mem_append_right _ hpath), hread]; rfl⟩

theorem uploaded_outcome (henabled : config.isEnabled = true)
    (hpaths : (s.disk.entries.map Prod.fst).Nodup)
    (hlisting : (listing.deleted ++ listing.listed).Subperm (s.disk.entries.map Prod.fst)) :
    Outcome config user s listing now readable status
      (uploaded config user stop s listing now readable status) := by
  have hdistinct : (listing.deleted ++ listing.listed).Nodup := by
    obtain ⟨l, hperm, hsub⟩ := hlisting
    exact hperm.nodup_iff.mp (hsub.nodup hpaths)
  have hthere := hlisting.subset
  have happart := List.nodup_append.mp hdistinct
  have hinitial := @reached_initial config user stop (listing.deleted.foldl Disk.remove s.disk)
    (turns listing.listed now readable status)
  rw [uploaded_eq henabled happart.2.1, deleted]
  generalize reached config user stop _ (turns listing.listed now readable status) =
    turned at hinitial
  generalize hdisk : listing.deleted.foldl Disk.remove s.disk = disk
  have hturned : ∀ report ∈ turned, report.path ∈ listing.listed ∧
      report = ⟨report.path, readable report.path, now, status report.path⟩ := fun report hin =>
    mem_turns (hinitial.subset hin)
  have hstatus : ∀ report ∈ turned, report.status = status report.path := fun report hin => by
    rw [(hturned report hin).2]
  -- a path that is listed can be read if its turn says so
  have hread : ∀ report ∈ turned, (payloadOf config user disk report).isSome =
      readable report.path := by
    intro report hin
    obtain ⟨hlisted, hsame⟩ := hturned report hin
    have hnot : report.path ∉ listing.deleted := fun hdel => happart.2.2 _ hdel _ hlisted rfl
    obtain ⟨e, he, hpath⟩ := List.mem_map.mp (hthere (List.mem_append_right _ hlisted))
    rw [payloadOf_isSome, ← hdisk, lookup_foldl_remove, if_neg hnot, ← hpath,
      lookup_entry hpaths he, hpath, hsame]
    exact Bool.and_true _
  have hmap := @turns_path now readable status listing.listed
  have hsettled := settled_paths hread hstatus
  have hentries : removeEach disk (turned.filter fun report => !report.fails config user disk) =
      (listing.deleted ++ (turned.map Listed.path).filter (goes readable status)).foldl
      Disk.remove s.disk := by
    rw [removeEach_eq, deleted_paths hread hstatus, ← hdisk, List.foldl_append]
  have hlisted : (turned.map Listed.path).filter (goes readable status) ⊆ listing.listed :=
    fun path hpath => by
    obtain ⟨report, hin, rfl⟩ := List.mem_map.mp (List.mem_filter.mp hpath).1
    exact (hturned report hin).1
  have hturnedNodup : (turned.map Listed.path).Nodup :=
    (hinitial.sublist.map _).nodup (by rw [hmap]; exact happart.2.1)
  have hgoing := hturnedNodup.filter (goes readable status)
  generalize (turned.map Listed.path).filter (goes readable status) =
    going at hsettled hentries hlisted hgoing
  constructor
  case files => rw [hentries, foldl_remove]
  case kept => exact ⟨_, by rw [hentries, foldl_remove]⟩
  case once => exact ((attempts_sublist disk _).nodup hturnedNodup)
  case attempts =>
    intro a ha
    obtain ⟨report, hin, hattempt⟩ := List.mem_filterMap.mp ha
    obtain ⟨hpath, hsame⟩ := hturned report hin
    obtain ⟨payload, hpayload, rfl⟩ := Option.map_eq_some_iff.mp hattempt
    exact ⟨hpath, hdisk ▸ hsame ▸ hpayload⟩
  case fates =>
    have hboth : (listing.deleted ++ going).Nodup :=
      List.nodup_append.mpr ⟨happart.1, hgoing, fun p hp q hq => happart.2.2 p hp q (hlisted hq)⟩
    have hsplit := perm_taken hpaths hboth fun path hin =>
      hthere (List.mem_append.mpr ((List.mem_append.mp hin).imp_right fun hin => hlisted hin))
    have hparts := List.filter_append_perm readable going
    have hunread := @unreadable_perm readable s listing going hpaths
      (fun path hin => hthere (List.mem_append_right _ hin)) hdistinct hgoing hlisted
    have hstays : ((listing.deleted ++ going).foldl Disk.remove s.disk).entries.map Prod.fst =
        (s.disk.entries.map Prod.fst).filter fun path =>
          decide (path ∉ listing.deleted ++ going) := by
      rw [foldl_remove, List.filter_map]
      rfl
    dsimp only
    rw [hentries, hstays, hsettled]
    rw [List.perm_iff_count] at hsplit hparts hunread ⊢
    intro path
    have h₁ := hsplit path
    have h₂ := hparts path
    have h₃ := hunread path
    simp only [List.count_append] at h₁ h₂ h₃ ⊢
    omega

end

section
variable {s : State} {entries : List (Bytes × Nat)}

theorem found_path (disk : Disk) (entries : List (Bytes × Nat)) :
    (found disk entries).map Pending.path = (entries.map Prod.fst).filter isReport := by
  rw [found, List.map_map, List.filter_map]
  rfl

theorem listing_subperm (hsubperm : entries.Subperm s.disk.entries) (now : Nat) :
    ((pendingPaths (found s.disk entries) now).deleted ++
      (pendingPaths (found s.disk entries) now).listed).Subperm (s.disk.entries.map Prod.fst) := by
  refine (pendingPaths_perm _ now).subperm.trans ?_
  rw [found_path]
  obtain ⟨l, hperm, hsub⟩ := hsubperm
  exact List.filter_sublist.subperm.trans ⟨l.map Prod.fst, hperm.map _, hsub.map _⟩

/-- A report as it is listed, by its file. -/
theorem found_file (hpaths : (s.disk.entries.map Prod.fst).Nodup)
    (hsub : entries ⊆ s.disk.entries) {p : Pending} (hp : p ∈ found s.disk entries) :
    s.modifiedAt (fileAt s.disk p.path) = p.modifiedAt := by
  obtain ⟨e, he, rfl⟩ := List.mem_map.mp hp
  rw [fileAt_entry hpaths (hsub (List.mem_filter.mp he).1)]
  rfl

theorem Accounted.nodup (h : Accounted s) :
    (s.pending ++ s.settled ++ s.pruned.map Pruned.file ++ s.unreadable).Nodup :=
  h.fates.nodup_iff.mpr List.nodup_range

theorem Accounted.pending_nodup (h : Accounted s) : s.pending.Nodup := by
  have hnodup := h.nodup
  rw [List.append_assoc, List.append_assoc] at hnodup
  exact (List.nodup_append.mp hnodup).1

/-- No file is pending and settled. -/
theorem Accounted.pending_apart (h : Accounted s) {file : Nat} (hpending : file ∈ s.pending) :
    file ∉ s.settled := by
  have hnodup := h.nodup
  rw [List.append_assoc, List.nodup_append] at hnodup
  exact fun hsettled => (List.nodup_append.mp hnodup.1).2.2 _ hpending _ hsettled rfl

/-- Different paths lead to different files. -/
theorem Sound.fileAt_injective (h : Sound s) {p q : Bytes} (hp : p ∈ s.disk.entries.map Prod.fst)
    (hq : q ∈ s.disk.entries.map Prod.fst) (heq : fileAt s.disk p = fileAt s.disk q) : p = q := by
  obtain ⟨e, he, rfl⟩ := List.mem_map.mp hp
  obtain ⟨f, hf, rfl⟩ := List.mem_map.mp hq
  rw [fileAt_entry h.paths he, fileAt_entry h.paths hf] at heq
  rw [List.inj_on_of_nodup_map h.pending_nodup he hf heq]

/-- What an upload makes of a report it can read is what is to be sent of it. -/
theorem Sound.payload (h : Sound s) {config : Configuration} {user : List (Bytes × Option Bytes)}
    {report : Listed} {disk : Disk} (hfiles : disk.files = s.disk.files)
    (hlookup : disk.lookup report.path = s.disk.lookup report.path) {payload : Bytes}
    (hpayload : payloadOf config user disk report = some payload) :
    ∃ r, s.reports[fileAt s.disk report.path]? = some r ∧
    payload = r.sent config user report.now := by
  have hsome : (payloadOf config user disk report).isSome = true := by rw [hpayload]; rfl
  rw [payloadOf_isSome, hlookup] at hsome
  obtain ⟨hreadable, hthere⟩ := Bool.and_eq_true_iff.mp hsome
  obtain ⟨file, hfile⟩ := Option.isSome_iff_exists.mp hthere
  obtain ⟨r, hr, hkind⟩ := h.kinds _ (lookup_some hfile)
  have hcontent : (s.disk.files[file]?).map File.content = some r.content := by
    rw [← List.getElem?_map, h.contents, List.getElem?_map, hr]
    rfl
  have hread : contentOf disk report = some r.content := by
    rw [contentOf, if_pos hreadable, hlookup, hfile, hfiles, Option.map_some, hcontent]
    rfl
  refine ⟨r, by rw [fileAt, hfile]; exact hr, ?_⟩
  rw [payloadOf, hkind, signalHandlerCompleteJson, crashStoreRead, hread] at hpayload
  cases r with
  | crash text => exact (Option.some.inj hpayload).symm
  | event text accepted =>
    have hstring : ∀ c ∈ text.take accepted, decide (c ≠ 0) = true := fun c hc =>
      decide_eq_true fun hzero => h.strings text accepted (List.mem_of_getElem? hr)
        (hzero ▸ List.mem_of_mem_take hc)
    have hwhole : (text.take accepted).takeWhile (· ≠ 0) = text.take accepted :=
      List.takeWhile_eq_self_iff.mpr hstring
    rw [← Option.some.inj hpayload]
    exact hwhole

theorem Sound.upload (h : Sound s) (config : Configuration)
    (user : List (Bytes × Option Bytes)) (stop : Bool) (hsubperm : entries.Subperm s.disk.entries)
    (now : Nat) (readable : Bytes → Bool) (status : Bytes → Int) :
    Sound (upload config user stop entries now readable status s) := by
  unfold Outbox.upload
  by_cases henabled : config.isEnabled = true
  swap
  · rw [if_neg henabled]
    exact h
  rw [if_pos henabled]
  dsimp only
  generalize hlisting : pendingPaths (found s.disk entries) now = listing
  have hin : (listing.deleted ++ listing.listed).Subperm (s.disk.entries.map Prod.fst) :=
    hlisting ▸ listing_subperm hsubperm now
  have houtcome := @uploaded_outcome config user stop now readable status s listing
    henabled h.paths hin
  generalize uploaded config user stop s listing now readable status = result at houtcome
  obtain ⟨⟨files, left⟩, attempts⟩ := result
  obtain rfl : files = s.disk.files := houtcome.files
  obtain ⟨gone, hkept⟩ := houtcome.kept
  dsimp only at hkept
  have hpending : ∀ l ⊆ s.disk.entries, l.map Prod.snd = (l.map Prod.fst).map (fileAt s.disk) := by
    intro l hl
    rw [List.map_map]
    exact List.map_congr_left fun e he => (fileAt_entry h.paths (hl he)).symm
  have hattempted : ∀ a ∈ attempts, a.1 ∈ s.disk.entries.map Prod.fst := fun a ha =>
    hin.subset (List.mem_append_right _ (houtcome.attempts a ha).1)
  have hdistinct : (listing.deleted ++ listing.listed).Nodup := by
    obtain ⟨l, hperm, hsub⟩ := hin
    exact hperm.nodup_iff.mp (hsub.nodup h.paths)
  constructor
  case toAccounted =>
    constructor
    case fates =>
      have hnew := houtcome.fates.map (fileAt s.disk)
      have hold := h.fates
      have hstays : left.map Prod.snd = (left.map Prod.fst).map (fileAt s.disk) :=
        hpending _ (by rw [hkept]; exact List.filter_sublist.subset)
      have hsettled : ((attempts.map fun a =>
          (⟨fileAt s.disk a.1, a.2, deliveryOutcomeForStatus (status a.1)⟩ :
            Attempt)).filter fun a => a.outcome ≠ .failed).map Attempt.file =
          ((attempts.filter fun a =>
            deliveryOutcomeForStatus (status a.1) ≠ .failed).map Prod.fst).map
            (fileAt s.disk) := by
        rw [List.filter_map, List.map_map, List.map_map]
        rfl
      have hpruned : (listing.deleted.map fun path =>
          (⟨fileAt s.disk path, now, listing.listed.map (fileAt s.disk)⟩ :
            Pruned)).map Pruned.file = listing.deleted.map (fileAt s.disk) := by
        rw [List.map_map]
        rfl
      rw [← hpending _ (List.Subset.refl _)] at hnew
      rw [List.perm_iff_count] at hold hnew ⊢
      intro file
      have h₁ := hold file
      have h₂ := hnew file
      simp only [State.pending, State.settled, List.filter_append, List.map_append,
        List.count_append, hstays, hsettled, hpruned] at h₁ h₂ ⊢
      omega
    case contents => exact h.contents
    case sent =>
      intro a ha
      rcases List.mem_append.mp ha with ha | ha
      · exact h.sent a ha
      · obtain ⟨b, hb, rfl⟩ := List.mem_map.mp ha
        obtain ⟨hlisted, hpayload⟩ := houtcome.attempts b hb
        have hnot : b.1 ∉ listing.deleted := fun hdel =>
          (List.nodup_append.mp hdistinct).2.2 _ hdel _ hlisted rfl
        obtain ⟨r, hr, hsent⟩ := h.payload (by rw [foldl_remove])
          (by rw [lookup_foldl_remove, if_neg hnot]) hpayload
        exact ⟨r, config, user, now, hr, hsent⟩
    case final =>
      rw [List.pairwise_append]
      refine ⟨h.final, ?_, ?_⟩
      · rw [List.pairwise_map]
        exact (List.pairwise_map.mp houtcome.once).imp_of_mem fun ha hb hne heq =>
          absurd (h.fileAt_injective (hattempted _ ha) (hattempted _ hb) heq) hne
      · intro a ha b hb hsame
        by_contra hsettled
        obtain ⟨c, hc, rfl⟩ := List.mem_map.mp hb
        obtain ⟨e, he, hpath⟩ := List.mem_map.mp (hattempted c hc)
        have hopen : a.file ∈ s.pending := by
          rw [hsame, ← hpath, fileAt_entry h.paths he]
          exact List.mem_map_of_mem he
        exact h.pending_apart hopen
          (List.mem_map_of_mem (List.mem_filter.mpr ⟨ha, decide_eq_true hsettled⟩))
    case pruned =>
      intro p hp
      rcases List.mem_append.mp hp with hp | hp
      · exact h.pruned p hp
      · obtain ⟨path, hpath, rfl⟩ := List.mem_map.mp hp
        obtain ⟨q, hq, rfl, hwhy⟩ := pendingPaths_deleted (hlisting ▸ hpath)
        rw [hlisting] at hwhy
        have hentries := hsubperm.subset
        show tooOld now (s.modifiedAt (fileAt s.disk q.path)) ∨ _ ∧ _ ∧
          ∀ file ∈ listing.listed.map (fileAt s.disk),
          s.modifiedAt (fileAt s.disk q.path) ≤ s.modifiedAt file
        rw [found_file h.paths hentries hq]
        refine hwhy.imp_right fun ⟨hlength, hnewer⟩ =>
          ⟨by rw [List.length_map, hlength], ?_, fun file hmem => ?_⟩
        · refine List.Nodup.map_on (fun x hx y hy heq => ?_) (List.nodup_append.mp hdistinct).2.1
          exact h.fileAt_injective (hin.subset (List.mem_append_right _ hx))
            (hin.subset (List.mem_append_right _ hy)) heq
        · obtain ⟨other, hother, rfl⟩ := List.mem_map.mp hmem
          obtain ⟨r, hr, rfl, hle⟩ := hnewer other hother
          rw [found_file h.paths hentries hr]
          exact hle
  case paths =>
    rw [hkept]
    exact (List.filter_sublist.map _).nodup h.paths
  case kinds =>
    intro e he
    rw [hkept] at he
    exact h.kinds e (List.mem_filter.mp he).1
  case strings => exact h.strings

theorem upload_counter (config : Configuration) (user : List (Bytes × Option Bytes))
    (stop : Bool) (now : Nat) (readable : Bytes → Bool) (status : Bytes → Int) :
    (upload config user stop entries now readable status s).counter = s.counter := by
  unfold Outbox.upload
  split <;> rfl

/-- No upload adds a path. -/
theorem upload_entries (hpaths : (s.disk.entries.map Prod.fst).Nodup) (config : Configuration)
    (user : List (Bytes × Option Bytes)) (stop : Bool)
    (hsubperm : entries.Subperm s.disk.entries) (now : Nat) (readable : Bytes → Bool)
    (status : Bytes → Int) :
    (upload config user stop entries now readable status s).disk.entries ⊆ s.disk.entries := by
  unfold Outbox.upload
  by_cases henabled : config.isEnabled = true
  · rw [if_pos henabled]
    obtain ⟨gone, hkept⟩ :=
      (@uploaded_outcome config user stop now readable status s _ henabled hpaths
        (listing_subperm hsubperm now)).kept
    dsimp only
    rw [hkept]
    exact List.filter_sublist.subset
  · rw [if_neg henabled]
    exact List.Subset.refl _

end

/-! ## The calls among the steps of the store -/

theorem write_steps {s : State} {c : CrashStore.State} {process : Nat} (hdisk : c.disk = s.disk)
    (hcalls : c.calls.length = s.reports.length) (hcounter : c.counters process = s.counter)
    (payload : Bytes) {now : Nat}
    (hnew : s.disk.lookup (eventPath c.directory now s.counter) = none) :
    ∃ t, Runs.exec CrashStore.step c (successfulWrite c.calls.length process payload now) = some t ∧
      t.disk = (write c.directory s payload now true payload.length).disk ∧
      t.counters process = (write c.directory s payload now true payload.length).counter := by
  have hwrite := @exec_successfulWrite c process now payload (by rw [hdisk, hcounter]; exact hnew)
  have hput := put_new (s := { s with counter := s.counter + 1 }) hnew now
    (.event payload payload.length)
  refine ⟨_, hwrite, ?_, ?_⟩
  · show _ = (State.put { s with counter := s.counter + 1 } _ now _).disk
    rw [hput]
    simp [State.afterWrite, hdisk, hcalls, hcounter, Report.content]
  · show _ = (State.put { s with counter := s.counter + 1 } _ now _).counter
    rw [hput]
    simp [State.afterWrite, hcounter]

theorem upload_steps {s : State} {c : CrashStore.State} (hdisk : c.disk = s.disk)
    {config : Configuration} (henabled : config.isEnabled = true)
    (user : List (Bytes × Option Bytes)) (stop : Bool) {entries : List (Bytes × Nat)}
    (hentries : entries.Perm s.disk.entries) (now : Nat) (readable : Bytes → Bool)
    (status : Bytes → Int) : Runs.Reachable CrashStore.step c
      { c with
        disk := (upload config user stop entries now readable status s).disk
        passes := c.passes ++ [⟨[], [], none, stop⟩] } := by
  generalize hlisting : pendingPaths (found s.disk entries) now = listing
  have hreach := @upload_reachable config henabled user stop c entries now (hdisk ▸ hentries)
    (turns listing.listed now readable status) (by rw [turns_path, hdisk, hlisting])
  have hupload : (upload config user stop entries now readable status s).disk =
      (uploaded config user stop s listing now readable status).disk := by
    rw [upload, if_pos henabled, hlisting]
  dsimp only at hreach
  rw [hdisk, hlisting] at hreach
  rw [hupload, uploaded]
  by_cases hempty : listing.listed = []
  · rw [hempty] at hreach
    rw [if_pos hempty, uploadPendingReportsUntilFailure, if_pos henabled]
    rw [uploadPendingReportsUntilFailure, if_pos henabled] at hreach
    exact hreach
  · rw [if_neg hempty]
    exact hreach

/-! ## Runs -/

theorem step_sound {directory : Bytes} {s t : State} {call : Call} (h : Sound s)
    (hnew : OpensNew directory s call) (hstep : step directory s call = some t) : Sound t := by
  cases call with
  | write payload now opens accepted =>
    obtain ⟨⟨-, hstring⟩, hsome⟩ := Option.ite_none_right_eq_some.mp hstep
    obtain rfl := Option.some.inj hsome
    unfold write
    cases opens with
    | false => exact h.counter _
    | true =>
      refine (h.counter (s.counter + 1)).put (hnew rfl) now (.event payload accepted)
        (eventPath_not_txt _ _ _)
        fun p n heq => ?_
      cases heq
      exact hstring
  | crash signalNumber now opens text =>
    obtain rfl := Option.some.inj hstep
    unfold crash
    cases opens with
    | false => exact h.counter _
    | true =>
      exact (h.counter 0).put (hnew rfl) now (.crash text) (signalPath_txt _ _ _) fun p n heq =>
        absurd heq (by simp)
  | restart =>
    obtain rfl := Option.some.inj hstep
    exact h.counter 0
  | upload config user stop entries now readable status =>
    obtain ⟨hentries, hsome⟩ := Option.ite_none_right_eq_some.mp hstep
    obtain rfl := Option.some.inj hsome
    exact h.upload config user stop hentries now readable status

/-- In whatever order reports are written, processes crash and reports are uploaded, every report
written is pending, settled, pruned or unreadable, and what was sent of it is what was written of
it. -/
theorem accounted {directory : Bytes} {calls : List Call} {s : State}
    (h : Runs.exec (step directory) initial calls = some s)
    (hnew : Runs.EveryStep (step directory) (OpensNew directory) initial calls) : Accounted s :=
  ((Runs.always_of_steps (fun _ _ _ hs hq hstep => step_sound hs hq hstep) initial calls
    initial_sound hnew).last h).toAccounted

/-! ## One process -/

def Call.sameProcess : Call → Bool
  | .write _ _ _ _ | .upload _ _ _ _ _ _ _ => true
  | .crash _ _ _ _ | .restart => false

/-- Every pending report was written under a count that has passed. -/
def Counted (directory : Bytes) (s : State) : Prop :=
  ∀ e ∈ s.disk.entries,
    ∃ second counter, counter < s.counter ∧ e.1 = eventPath directory second counter

theorem Counted.opensNew {directory : Bytes} {s : State} (h : Counted directory s) {call : Call}
    (hsame : call.sameProcess = true) : OpensNew directory s call := by
  cases call with
  | write payload now opens accepted =>
    intro _
    by_contra hsome
    obtain ⟨file, hfile⟩ := Option.ne_none_iff_exists'.mp hsome
    obtain ⟨second, counter, hlt, hpath⟩ := h _ (lookup_some hfile)
    have heq := (eventPath_injective hpath).2
    omega
  | upload config user stop entries now readable status => trivial
  | crash signalNumber now opens text => cases hsame
  | restart => cases hsame

theorem step_counted {directory : Bytes} {s t : State} {call : Call} (hsound : Sound s)
    (h : Counted directory s) (hsame : call.sameProcess = true)
    (hstep : step directory s call = some t) : Counted directory t := by
  cases call with
  | write payload now opens accepted =>
    have hnew := h.opensNew hsame
    obtain ⟨-, hsome⟩ := Option.ite_none_right_eq_some.mp hstep
    obtain rfl := Option.some.inj hsome
    have hlater : ∀ e ∈ s.disk.entries, ∃ second counter, counter < s.counter + 1 ∧
        e.1 = eventPath directory second counter := fun e he => by
      obtain ⟨second, counter, hlt, hpath⟩ := h e he
      exact ⟨second, counter, Nat.lt_succ_of_lt hlt, hpath⟩
    unfold write
    cases opens with
    | false => exact hlater
    | true =>
      rw [if_pos rfl, put_new (s := { s with counter := s.counter + 1 }) (hnew rfl)]
      intro e he
      rcases List.mem_append.mp he with he | he
      · exact hlater e he
      · obtain rfl := List.mem_singleton.mp he
        exact ⟨now, s.counter, Nat.lt_succ_self _, rfl⟩
  | upload config user stop entries now readable status =>
    obtain ⟨hentries, hsome⟩ := Option.ite_none_right_eq_some.mp hstep
    obtain rfl := Option.some.inj hsome
    intro e he
    rw [upload_counter]
    exact h e (upload_entries hsound.paths config user stop hentries now readable status he)
  | crash signalNumber now opens text => cases hsame
  | restart => cases hsame

/-- One process never opens the path of a report that is pending. -/
theorem accounted_of_sameProcess {directory : Bytes} {calls : List Call} {s : State}
    (h : Runs.exec (step directory) initial calls = some s)
    (hsame : ∀ call ∈ calls, call.sameProcess = true) : Accounted s := by
  have hkeep : ∀ calls s t, Sound s → Counted directory s →
      (∀ call ∈ calls, Call.sameProcess call = true) → Runs.exec (step directory) s calls =
      some t → Sound t := by
    intro calls
    induction calls with
    | nil =>
      intro s t hsound _ _ hrun
      exact Option.some.inj hrun ▸ hsound
    | cons call calls ih =>
      intro s t hsound hcounted hall hrun
      obtain ⟨u, hu, hrest⟩ := Option.bind_eq_some_iff.mp hrun
      have hcall := hall call List.mem_cons_self
      exact ih u t (step_sound hsound (hcounted.opensNew hcall) hu)
        (step_counted hsound hcounted hcall hu)
        (fun c hc => hall c (List.mem_cons_of_mem _ hc)) hrest
  exact (hkeep calls initial s initial_sound (by simp [Counted, initial]) hsame h).toAccounted

/-! ## Two processes -/

instance decidableOpensNew (directory : Bytes) (s : State) :
    ∀ call, Decidable (OpensNew directory s call)
  | .write _ _ _ _ => inferInstanceAs (Decidable (_ → _))
  | .crash _ _ _ _ => inferInstanceAs (Decidable (_ → _))
  | .restart => inferInstanceAs (Decidable True)
  | .upload _ _ _ _ _ _ _ => inferInstanceAs (Decidable True)

def sending : Configuration := { dsn := some (ascii "https://k@h") }

def fourEntries : List (Bytes × Nat) :=
  [(eventPath (ascii "/c") 100 0, 0), (eventPath (ascii "/c") 100 1, 1),
    (signalPath (ascii "/c") 6 105, 2), (eventPath (ascii "/c") 200 0, 3)]

/-- Of two processes the first writes a report and half of one, and crashes; the second writes one
and uploads twice. The half report cannot be read, and the server is busy when the last one
comes. -/
def twoProcesses : List Call :=
  [.write (ascii "A") 100 true 1, .write (ascii "BB") 100 true 1,
    .crash 6 105 true (ascii "Aborted"), .write (ascii "C") 200 true 1,
    .upload sending [] false fourEntries 300 (fun path => path ≠ eventPath (ascii "/c") 100 1)
      (fun path => if path = eventPath (ascii "/c") 200 0 then 503 else 202),
    .upload sending [] false (fourEntries.drop 3) 400 (fun _ => true) (fun _ => 202)]

theorem accounted_twoProcesses : ∃ s, Runs.exec (step (ascii "/c")) initial twoProcesses =
    some s ∧ Accounted s ∧ s.pending = [] ∧ s.settled = [0, 2, 3] ∧ s.unreadable = [1] := by
  have hrun : Runs.exec (step (ascii "/c")) initial twoProcesses = some _ := rfl
  exact ⟨_, hrun, accounted hrun (by decide), by decide, by decide, by decide⟩

end ForgeOps.Outbox
