import ForgeOpsTracker.Lib.Directories

/-! The two ways the crash directory is prepared: level by level before a report is
stored, and by a single `mkdir` when the signal handler is installed. -/

namespace ForgeOps.CrashDirectory
open Directories

/-- The bytes in front of each slash but a leading one: what `mkdir_recursive` cuts
its buffer down to, in turn. -/
def slashPrefixes (path : Bytes) : List Bytes :=
  ((List.range path.length).filter fun i => 1 ≤ i ∧ path[i]? = some 47).map path.take

/-- `mkdir` on each path in turn, content with one that is there, up to the first
other failure. -/
def mkdirEach (fs : FileSystem) : List Bytes → FileSystem × Bool
  | [] => (fs, true)
  | path :: paths =>
    match mkdir fs path with
    | .ok fs' => mkdirEach fs' paths
    | .error .alreadyExists => mkdirEach fs paths
    | .error _ => (fs, false)

/-- `mkdir_recursive`: the file system it leaves, and whether it returned 0. -/
def mkdirRecursive (fs : FileSystem) (path : Bytes) : FileSystem × Bool :=
  if path.length = 0 ∨ path.length ≥ 1024 then (fs, false)
  else mkdirEach fs (slashPrefixes path ++ [path])

/-- What `forgeops_signal_handler_install` leaves: the file system, and the copy of
the path the handler will use. -/
structure Installed where
  fs : FileSystem
  crashDirectory : Bytes

def pathMax : Nat := 4096

/-- `forgeops_signal_handler_install` -/
def install (fs : FileSystem) (crashReportsDirectory : Bytes) : Installed where
  fs :=
    match mkdir fs crashReportsDirectory with
    | .ok fs' => fs'
    | .error _ => fs
  crashDirectory := crashReportsDirectory.take (pathMax - 1)

def reportName (signalNumber now : Nat) : Bytes :=
  ascii "signal-" ++ decimal signalNumber ++ ascii "-" ++ decimal now ++ ascii ".txt"

/-- Whether the `open` of `forgeops_signal_handler_write_report` succeeds. -/
def reportOpens (t : Installed) (signalNumber now : Nat) : Bool :=
  canOpen t.fs ((t.crashDirectory ++ 47 :: reportName signalNumber now).take (pathMax - 1))

/-! ## When every level but the last is there -/

theorem mem_slashPrefixes {path p : Bytes} (h : p ∈ slashPrefixes path) :
    p ≠ [] ∧ ∃ rest, path = p ++ 47 :: rest := by
  simp only [slashPrefixes, List.mem_map, List.mem_filter, decide_eq_true_eq] at h
  obtain ⟨i, ⟨-, hi, hslash⟩, rfl⟩ := h
  obtain ⟨hlt, hget⟩ := List.getElem?_eq_some_iff.mp hslash
  refine ⟨?_, path.drop (i + 1), ?_⟩
  · rw [ne_eq, List.take_eq_nil_iff]
    rintro (rfl | rfl)
    · exact absurd hi (by decide)
    · exact Nat.not_lt_zero _ hlt
  · rw [← hget, ← List.drop_eq_getElem_cons hlt, List.take_append_drop]

/-- With the parent of a path in place, each shorter path is there already, or names
the same directory with slashes behind it. -/
theorem mkdir_slashPrefix {fs : FileSystem} {path p : Bytes} (hv : Vacant fs path)
    (hp : p ∈ slashPrefixes path) :
    mkdir fs p = .error .alreadyExists ∨ mkdir fs p = mkdir fs path := by
  obtain ⟨hne, rest, rfl⟩ := mem_slashPrefixes hp
  have hne' : p ++ 47 :: rest ≠ [] := by simp
  obtain ⟨-, -, -, -, d, hparent, -⟩ := hv
  have hparent := leads_of_walk hparent
  rw [components_append, start_append hne] at hparent
  rcases List.eq_nil_or_concat (components rest) with hnil | ⟨init, last, hlast⟩
  · refine .inr (mkdir_congr hne hne' ?_ (start_append hne ..).symm)
    rw [components_append, hnil, List.append_nil]
  · rw [hlast, List.concat_eq_append, ← List.append_assoc, List.dropLast_concat] at hparent
    exact .inl (mkdir_of_passed hne hparent)

/-- One failure other than finding the directory there fails the whole. -/
theorem mkdirEach_fails {fs : FileSystem} {e : Errno} (he : e ≠ .alreadyExists)
    {paths : List Bytes}
    (hall : ∀ p ∈ paths, mkdir fs p = .error .alreadyExists ∨ mkdir fs p = .error e)
    (hsome : ∃ p ∈ paths, mkdir fs p = .error e) : (mkdirEach fs paths).2 = false := by
  induction paths with
  | nil =>
    obtain ⟨p, hp, -⟩ := hsome
    cases hp
  | cons p paths ih =>
    rcases hall p List.mem_cons_self with hp | hp
    · rw [mkdirEach, hp]
      refine ih (fun q hq => hall q (List.mem_cons_of_mem _ hq)) ?_
      obtain ⟨q, hq, hqe⟩ := hsome
      rcases List.mem_cons.mp hq with rfl | hq
      · exact absurd (Except.error.inj (hqe.symm.trans hp)) he
      · exact ⟨q, hq, hqe⟩
    · rw [mkdirEach, hp]
      cases e <;> first | rfl | exact absurd rfl he

theorem mkdir_of_vacant {fs : FileSystem} {path : Bytes} (hv : Vacant fs path)
    (h : (mkdirRecursive fs path).2 = true) : ∃ fs', mkdir fs path = .ok fs' := by
  cases hm : mkdir fs path with
  | ok fs' => exact ⟨fs', rfl⟩
  | error e =>
    have he : e ≠ .alreadyExists := by
      rintro rfl
      exact hv.mkdir_ne.2 hm
    have hfails : (mkdirEach fs (slashPrefixes path ++ [path])).2 = false := by
      refine mkdirEach_fails he (fun p hp => ?_) ⟨path, List.mem_concat_self, hm⟩
      rcases List.mem_append.mp hp with hp | hp
      · exact hm ▸ mkdir_slashPrefix hv hp
      · rw [List.mem_singleton.mp hp]
        exact .inr hm
    rw [mkdirRecursive] at h
    split at h
    · cases h
    · rw [hfails] at h
      cases h

/-! ## What installation leaves -/

theorem install_isDirectory {fs : FileSystem} {path : Bytes}
    (h : (mkdirRecursive fs path).2 = true) :
    IsDirectory (install fs path).fs path ↔ IsDirectory fs path ∨ Vacant fs path := by
  constructor
  · intro hdir
    cases hm : mkdir fs path with
    | ok fs' => exact .inr (mkdir_ok hm).1
    | error e =>
      simp only [install, hm] at hdir
      exact .inl hdir
  · rintro (hdir | hv)
    · cases hm : mkdir fs path with
      | ok fs' =>
        simp only [install, hm]
        exact (mkdir_ok hm).2
      | error e =>
        simp only [install, hm]
        exact hdir
    · obtain ⟨fs', hm⟩ := mkdir_of_vacant hv h
      simp only [install, hm]
      exact (mkdir_ok hm).2

theorem reportName_spec (signalNumber now : Nat) :
    reportName signalNumber now ≠ [] ∧ 47 ∉ reportName signalNumber now := by
  have hdigit : ∀ n, 47 ∉ decimal n := by
    intro n h
    exact absurd (decimal_isDigit n 47 h) (by decide)
  constructor
  · simp [reportName, ascii]
  · intro h
    simp only [reportName, List.mem_append] at h
    rcases h with (((h | h) | h) | h) | h
    · exact absurd h (by decide)
    · exact hdigit signalNumber h
    · exact absurd h (by decide)
    · exact hdigit now h
    · exact absurd h (by decide)

/-- The report goes into the directory that was installed, or nowhere. -/
theorem isDirectory_of_reportOpens {fs : FileSystem} {path : Bytes} {signalNumber now : Nat}
    (h : (mkdirRecursive fs path).2 = true)
    (hopen : reportOpens (install fs path) signalNumber now = true) :
    IsDirectory (install fs path).fs path := by
  have hlen : path ≠ [] ∧ path.length < 1024 := by
    rw [mkdirRecursive] at h
    split at h
    · cases h
    · rename_i hlen
      simp only [not_or, List.length_eq_zero_iff, ge_iff_le, Nat.not_le] at hlen
      exact hlen
  obtain ⟨hname, hslash⟩ := reportName_spec signalNumber now
  have hcopy : path.take (pathMax - 1) = path :=
    List.take_of_length_le (by simp only [pathMax]; omega)
  have hroom : pathMax - 1 = path.length + (pathMax - 2 - path.length + 1) := by
    simp only [pathMax]
    omega
  rw [reportOpens, install, hcopy, hroom, List.take_length_add_append, List.take_succ_cons] at hopen
  refine canOpen_in hlen.1 ?_ (fun h => hslash (List.mem_of_mem_take h)) hopen
  rw [ne_eq, List.take_eq_nil_iff]
  rintro (hzero | hnil)
  · simp only [pathMax] at hzero
    omega
  · exact hname hnil

/-- On a path that can be made level by level, installation leaves a directory there
if and only if the path is one already, or only its last level is missing. Otherwise
no report can be opened either. -/
theorem install_prepares_iff (fs : FileSystem) (path : Bytes)
    (h : (mkdirRecursive fs path).2 = true) :
    (IsDirectory (install fs path).fs path ↔ IsDirectory fs path ∨ Vacant fs path) ∧
      (¬ (IsDirectory fs path ∨ Vacant fs path) →
        ∀ signalNumber now, reportOpens (install fs path) signalNumber now = false) := by
  refine ⟨install_isDirectory h, fun hnot signalNumber now => ?_⟩
  by_contra hopen
  rw [Bool.not_eq_false] at hopen
  exact hnot ((install_isDirectory h).mp (isDirectory_of_reportOpens h hopen))

def emptyDirectory (parent : Nat) : Directory := ⟨parent, [], true, fun _ => true⟩

/-- A root with `/tmp` in it. -/
def withTmp : FileSystem where
  directories := [{ emptyDirectory 0 with entries := [(ascii "tmp", .directory 1)] },
    emptyDirectory 0]
  cwd := 0
  newSearchable := true
  newAdmits := fun _ => true

def tmpReports : Bytes := ascii "/tmp/reports"

theorem install_prepares_iff_tmp :
    (mkdirRecursive withTmp tmpReports).2 = true ∧
      (IsDirectory (install withTmp tmpReports).fs tmpReports ↔
        IsDirectory withTmp tmpReports ∨ Vacant withTmp tmpReports) ∧
      (¬ (IsDirectory withTmp tmpReports ∨ Vacant withTmp tmpReports) →
        ∀ signalNumber now, reportOpens (install withTmp tmpReports) signalNumber now = false) :=
  ⟨by decide, install_prepares_iff withTmp tmpReports (by decide)⟩

/-- Two levels below `/tmp`. -/
def defaultDirectory : Bytes := ascii "/tmp/forgeops-tracker/pending-crash-reports"
def trackerDirectory : Bytes := ascii "/tmp/forgeops-tracker"

def withTracker : FileSystem := addDirectory withTmp 1 (ascii "forgeops-tracker")
def withDefault : FileSystem := addDirectory withTracker 2 (ascii "pending-crash-reports")

theorem mkdirRecursive_default :
    mkdirRecursive withTmp defaultDirectory = (withDefault, true) := by
  have hprefixes : slashPrefixes defaultDirectory = [ascii "/tmp", trackerDirectory] := by decide
  have htmp : mkdir withTmp (ascii "/tmp") = .error .alreadyExists := by rfl
  have htracker : mkdir withTmp trackerDirectory = .ok withTracker := by rfl
  have hdefault : mkdir withTracker defaultDirectory = .ok withDefault := by rfl
  rw [mkdirRecursive, if_neg (by decide), hprefixes]
  simp only [List.cons_append, List.nil_append, mkdirEach, htmp, htracker, hdefault]

theorem install_misses_default :
    mkdirRecursive withTmp defaultDirectory = (withDefault, true) ∧
      IsDirectory withDefault defaultDirectory ∧
      ¬ IsDirectory (install withTmp defaultDirectory).fs defaultDirectory :=
  ⟨mkdirRecursive_default, by decide, by decide⟩

end ForgeOps.CrashDirectory
