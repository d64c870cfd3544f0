import ForgeOpsTracker.CrashStore

/-! What concurrent writes leave in the crash directory: under which paths, and with
how much in the files. -/

namespace ForgeOps.CrashStore

/-! ## Paths -/

theorem hyphen_notMem_decimal (n : Nat) : (45 : UInt8) ∉ decimal n := fun h =>
  absurd (decimal_isDigit n 45 h) (by decide)

theorem eventPath_injective {directory : Bytes} {second counter second' counter' : Nat}
    (h : eventPath directory second counter = eventPath directory second' counter') :
    second = second' ∧ counter = counter' := by
  have hjson : (45 : UInt8) ∉ decimal counter ++ ascii ".json" := by
    rw [List.mem_append]
    rintro (h | h)
    · exact hyphen_notMem_decimal counter h
    · exact absurd h (by decide)
  have hdash : ascii "-" = [45] := rfl
  simp only [eventPath, hdash, List.append_assoc, List.append_cancel_left_eq,
    List.singleton_append] at h
  obtain ⟨hsecond, -, hrest⟩ :=
    (List.append_cons_inj_of_notMem (hyphen_notMem_decimal second) hjson).mp h
  exact ⟨decimal_injective hsecond, decimal_injective (List.append_cancel_right hrest)⟩

/-- The buffer of 1152 bytes holds every path below a directory that could be made. -/
theorem eventPath_fits {directory : Bytes} {second counter : Nat}
    (hd : directory.length < 1024) (hs : second < 2 ^ 63) (hc : counter < 2 ^ 63) :
    (eventPath directory second counter).length < 1152 := by
  have hbound : ∀ n, n < 2 ^ 63 → (decimal n).length ≤ 19 := fun n hn =>
    decimal_length_le (by decide) (Nat.lt_trans hn (by decide))
  have hsecond := hbound second hs
  have hcounter := hbound counter hc
  have hparts : (ascii "/event-").length = 7 ∧ (ascii "-").length = 1 ∧
      (ascii ".json").length = 5 := by
    decide
  simp only [eventPath, List.length_append, hparts]
  omega

/-! ## Every path leads to the call that made it -/

/-- The file call `i` has open or had open. -/
def fileOf (calls : List Call) (i : Nat) : Option Opened := (calls[i]?).bind fun c => c.phase.file

theorem fileOf_append {calls : List Call} {c : Call} (hc : c.phase.file = none) (i : Nat) :
    fileOf (calls ++ [c]) i = fileOf calls i := by
  rcases Nat.lt_trichotomy i calls.length with h | rfl | h
  · rw [fileOf, fileOf, List.getElem?_append_left h]
  · simp [fileOf, hc]
  · rw [fileOf, fileOf, List.getElem?_eq_none (by simpa using h), List.getElem?_eq_none h.le]

theorem fileOf_setPhase {s : State} {i : Nat} {c : Call} (hc : s.calls[i]? = some c)
    (phase : Phase) (j : Nat) :
    fileOf (s.setPhase i phase).calls j = if j = i then phase.file else fileOf s.calls j := by
  rw [State.setPhase, fileOf, List.getElem?_modify]
  by_cases h : j = i
  · simp [h, hc]
  · simp [h, Ne.symm h, fileOf]

/-- Each path of the directory was made by a call that opened the file behind it. -/
structure Traced (s : State) : Prop where
  maker : ∀ e ∈ s.disk.entries, ∃ i o, fileOf s.calls i = some o ∧ o.file = e.2
  bound : ∀ i o, fileOf s.calls i = some o → o.file < s.disk.files.length
  path : ∀ i o, fileOf s.calls i = some o → ∀ e ∈ s.disk.entries, e.2 = o.file →
    e.1 = eventPath s.directory o.second o.counter

theorem initial_traced (directory : Bytes) : Traced (initial directory) := by
  constructor <;> simp [initial, fileOf]

/-- Whatever leaves the calls' files alone and adds no path keeps paths traced. -/
theorem Traced.of_subset {s t : State} (hs : Traced s)
    (hcalls : ∀ i, fileOf t.calls i = fileOf s.calls i) (hdir : t.directory = s.directory)
    (hfiles : t.disk.files.length = s.disk.files.length)
    (hentries : t.disk.entries ⊆ s.disk.entries) : Traced t := by
  refine ⟨fun e he => ?_, fun i o ho => ?_, fun i o ho e he hfile => ?_⟩
  · simpa only [hcalls] using hs.maker e (hentries he)
  · rw [hfiles]
    exact hs.bound i o (hcalls i ▸ ho)
  · rw [hdir]
    exact hs.path i o (hcalls i ▸ ho) e (hentries he) hfile

theorem store_files_length (disk : Disk) (file offset : Nat) (data : Bytes) (now : Nat) :
    (disk.store file offset data now).files.length = disk.files.length ∧
      (disk.store file offset data now).entries = disk.entries := by
  unfold Disk.store
  split <;> simp

theorem lookup_some {disk : Disk} {path : Bytes} {file : Nat} (h : disk.lookup path = some file) :
    (path, file) ∈ disk.entries := by
  obtain ⟨e, he, rfl⟩ := Option.map_eq_some_iff.mp h
  have hpath : e.1 = path := by simpa using List.find?_some he
  rw [← hpath]
  exact List.mem_of_find?_eq_some he

theorem lookup_none {disk : Disk} {path : Bytes} (h : disk.lookup path = none) :
    ∀ e ∈ disk.entries, e.1 ≠ path := by
  simpa [Disk.lookup] using h

/-- Opening either empties the file its path leads to or makes a new one. -/
theorem openFor_cases (s : State) (i second counter now : Nat) :
    let path := eventPath s.directory second counter
    let t := s.openFor i second counter now
    (∃ file, s.disk.lookup path = some file ∧
      t = { s.setPhase i (.opened ⟨second, counter, file, true⟩) with
        disk := { s.disk with files := s.disk.files.set file ⟨[], now, i⟩ } }) ∨
    (s.disk.lookup path = none ∧
      t = { s.setPhase i (.opened ⟨second, counter, s.disk.files.length, false⟩) with
        disk := ⟨s.disk.files ++ [⟨[], now, i⟩],
          s.disk.entries ++ [(path, s.disk.files.length)]⟩ }) := by
  cases h : s.disk.lookup (eventPath s.directory second counter) with
  | some file => exact .inl ⟨file, h, by simp [State.openFor, Disk.openForWriting, h]⟩
  | none => exact .inr ⟨h, by simp [State.openFor, Disk.openForWriting, h]⟩

theorem openFor_traced {s : State} (hs : Traced s) {i : Nat} {c : Call} {second counter : Nat}
    (hc : s.calls[i]? = some c) (hphase : c.phase = .named second counter) (now : Nat) :
    Traced (s.openFor i second counter now) := by
  have hnone : fileOf s.calls i = none := by simp [fileOf, hc, hphase, Phase.file]
  have hother : ∀ j o, fileOf s.calls j = some o → j ≠ i := by
    rintro j o ho rfl
    rw [hnone] at ho
    cases ho
  rcases openFor_cases s i second counter now with ⟨file, hlookup, ht⟩ | ⟨hlookup, ht⟩
  · -- the path stays with the file it led to
    have hmem := lookup_some hlookup
    obtain ⟨j, q, hq, hqfile⟩ := hs.maker _ hmem
    rw [ht]
    refine ⟨fun e he => ?_, fun k o ho => ?_, fun k o ho e he hfile => ?_⟩
    · obtain ⟨k, o, ho, hoe⟩ := hs.maker e he
      exact ⟨k, o, by rw [fileOf_setPhase hc, if_neg (hother k o ho)]; exact ho, hoe⟩
    · simp only [List.length_set]
      rw [fileOf_setPhase hc] at ho
      split at ho
      · obtain rfl := Option.some.inj ho
        exact lt_of_eq_of_lt hqfile.symm (hs.bound j q hq)
      · exact hs.bound k o ho
    · rw [fileOf_setPhase hc] at ho
      split at ho
      · obtain rfl := Option.some.inj ho
        rw [hs.path j q hq e he (hfile.trans hqfile.symm)]
        exact (hs.path j q hq _ hmem hqfile.symm).symm
      · exact hs.path k o ho e he hfile
  · -- the new path leads to a file no call has seen
    rw [ht]
    refine ⟨fun e he => ?_, fun k o ho => ?_, fun k o ho e he hfile => ?_⟩
    · rcases List.mem_append.mp he with he | he
      · obtain ⟨k, o, ho, hoe⟩ := hs.maker e he
        exact ⟨k, o, by rw [fileOf_setPhase hc, if_neg (hother k o ho)]; exact ho, hoe⟩
      · rw [List.mem_singleton.mp he]
        exact ⟨i, _, by rw [fileOf_setPhase hc, if_pos rfl]; rfl, rfl⟩
    · simp only [List.length_append, List.length_singleton]
      rw [fileOf_setPhase hc] at ho
      split at ho
      · obtain rfl := Option.some.inj ho
        exact Nat.lt_succ_self _
      · exact Nat.lt_succ_of_lt (hs.bound k o ho)
    · rw [fileOf_setPhase hc] at ho
      rcases List.mem_append.mp he with he | he
      · split at ho
        · obtain rfl := Option.some.inj ho
          obtain ⟨j, q, hq, hqe⟩ := hs.maker e he
          have := hs.bound j q hq
          simp only at hfile
          omega
        · exact hs.path k o ho e he hfile
      · obtain rfl := List.mem_singleton.mp he
        split at ho
        · obtain rfl := Option.some.inj ho
          rfl
        · have := hs.bound k o ho
          simp only at hfile
          omega

theorem step_traced (s : State) (a : Action) (t : State) (hs : Traced s)
    (h : step s a = some t) : Traced t := by
  cases step_effect h with
  | entered c hfile hresult =>
    exact hs.of_subset (fun i => fileOf_append hfile i) rfl rfl fun _ h => h
  | moved i c phase counters hc hno hfile hresult =>
    refine hs.of_subset (fun j => ?_) rfl rfl fun _ h => h
    rw [fileOf_setPhase hc]
    split
    · rename_i hj
      simp [hj, fileOf, hc, hno, hfile]
    · rfl
  | opened i c second counter now ha hc hphase => exact openFor_traced hs hc hphase now
  | stored i c o phase offset data now hc hold hfile hdata hwritten hresult =>
    obtain ⟨hlen, hentries⟩ := store_files_length s.disk o.file offset data now
    refine hs.of_subset (fun j => ?_) rfl hlen (by rw [hentries]; exact fun _ h => h)
    rw [fileOf_setPhase hc]
    split
    · rename_i hj
      simp [hj, fileOf, hc, hold, hfile]
    · rfl
  | passed disk passes hdisk =>
    rcases hdisk with rfl | ⟨path, rfl⟩
    · exact hs.of_subset (fun _ => rfl) rfl rfl fun _ h => h
    · exact hs.of_subset (fun _ => rfl) rfl rfl fun _ h => List.mem_of_mem_filter h

/-! ## Which writes collide -/

/-- The call whose `open` the step is, if it succeeds. -/
def opener (s : State) : Action → Option Call
  | .openFile i true _ => (s.calls[i]?).filter fun c => c.phase.stamp.isSome
  | _ => none

/-- The second and the counter that `open` goes by. -/
def drawn (s : State) (a : Action) : Option (Nat × Nat) := (opener s a).bind fun c => c.phase.stamp

theorem opener_opened {s : State} {i : Nat} {c : Call} {second counter : Nat} (now : Nat)
    (hc : s.calls[i]? = some c) (hphase : c.phase = .named second counter) :
    opener s (.openFile i true now) = some c := by
  simp [opener, hc, Option.filter, hphase, Phase.stamp]

/-- What is opened is no pending report's path. -/
def OpensNew (s : State) (a : Action) : Prop :=
  ∀ n ∈ drawn s a, s.disk.lookup (eventPath s.directory n.1 n.2) = none

/-- No report still pending was written by a call that drew the same second and the
same counter. -/
def StampFree (s : State) (a : Action) : Prop :=
  ∀ n ∈ drawn s a, ∀ c ∈ s.calls, ∀ o ∈ c.phase.file, o.second = n.1 → o.counter = n.2 →
    ∀ e ∈ s.disk.entries, e.2 ≠ o.file

/-- No write that returned 0 had opened the path of a pending report. -/
def NoOverwrite (s : State) : Prop :=
  ∀ c ∈ s.calls, c.phase.result = some 0 → ∀ o ∈ c.phase.file, o.overwrote = false

instance (s : State) (a : Action) : Decidable (OpensNew s a) :=
  inferInstanceAs (Decidable (∀ n ∈ drawn s a, _))

instance (s : State) : Decidable (NoOverwrite s) :=
  inferInstanceAs (Decidable (∀ c ∈ s.calls, _ → ∀ o ∈ _, _))

theorem mem_calls_fileOf {calls : List Call} {o : Opened} :
    (∃ c ∈ calls, c.phase.file = some o) ↔ ∃ i, fileOf calls i = some o := by
  constructor
  · rintro ⟨c, hc, ho⟩
    obtain ⟨i, hi, rfl⟩ := List.getElem_of_mem hc
    exact ⟨i, by simp [fileOf, List.getElem?_eq_getElem hi, ho]⟩
  · rintro ⟨i, hi⟩
    obtain ⟨c, hc, ho⟩ := Option.bind_eq_some_iff.mp hi
    exact ⟨c, List.mem_of_getElem? hc, ho⟩

theorem opensNew_iff_stampFree {s : State} (hs : Traced s) (a : Action) :
    OpensNew s a ↔ StampFree s a := by
  refine forall₂_congr fun n _ => ?_
  constructor
  · intro hnew c hc o ho hsecond hcounter e he hfile
    obtain ⟨i, hi⟩ := mem_calls_fileOf.mp ⟨c, hc, ho⟩
    have hpath := hs.path i o hi e he hfile
    exact lookup_none hnew e he (by rw [hpath, hsecond, hcounter])
  · intro hfree
    cases hlookup : s.disk.lookup (eventPath s.directory n.1 n.2) with
    | none => rfl
    | some file =>
      have hmem := lookup_some hlookup
      obtain ⟨i, o, hi, hfile⟩ := hs.maker _ hmem
      obtain ⟨hsecond, hcounter⟩ := eventPath_injective (hs.path i o hi _ hmem hfile.symm)
      obtain ⟨c, hc, ho⟩ := mem_calls_fileOf.mpr ⟨i, hi⟩
      exact absurd hfile.symm (hfree c hc o ho hsecond.symm hcounter.symm _ hmem)

theorem opened_fresh {s t : State} {a : Action}
    (hold : ∀ i o, fileOf s.calls i = some o → o.overwrote = false) (hnew : OpensNew s a)
    (h : step s a = some t) :
    ∀ i o, fileOf t.calls i = some o → o.overwrote = false := by
  cases step_effect h with
  | entered c hfile hresult =>
    intro j o ho
    exact hold j o (fileOf_append hfile j ▸ ho)
  | moved i c phase counters hc hno hfile hresult =>
    intro j o ho
    rw [fileOf_setPhase hc] at ho
    split at ho
    · rw [hfile] at ho
      cases ho
    · exact hold j o ho
  | opened i c second counter now ha hc hphase =>
    have hlookup := hnew (second, counter)
      (by simp [ha, drawn, opener_opened now hc hphase, hphase, Phase.stamp])
    rcases openFor_cases s i second counter now with ⟨file, hthere, -⟩ | ⟨-, ht⟩
    · rw [hlookup] at hthere
      cases hthere
    · intro j o ho
      rw [ht, fileOf_setPhase hc] at ho
      split at ho
      · obtain rfl := Option.some.inj ho
        rfl
      · exact hold j o ho
  | stored i c q phase offset data now hc hopen hfile hdata hwritten hresult =>
    intro j o ho
    rw [fileOf_setPhase hc] at ho
    split at ho
    · exact hold i o (by simp [fileOf, hc, hopen, ← ho, hfile])
    · exact hold j o ho
  | passed disk passes hdisk => exact hold

/-- In every run, the writes open new paths, and the ones that succeed overwrite
nothing, if no call draws the second and the counter of a report still pending; and
every path is new only then. -/
theorem writes_never_collide_iff (directory : Bytes) (actions : List Action) :
    Runs.EveryStep step StampFree (initial directory) actions ↔
      Runs.EveryStep step OpensNew (initial directory) actions ∧
        Runs.Always step NoOverwrite (initial directory) actions := by
  have htraced := Runs.always_of_invariant step_traced _ actions (initial_traced directory)
  constructor
  · intro h
    have hnew : Runs.EveryStep step OpensNew (initial directory) actions :=
      Runs.EveryStep.imp_of_always (fun _ a _ hs _ => (opensNew_iff_stampFree hs a).mpr) htraced h
    refine ⟨hnew, ?_⟩
    have hfresh := Runs.always_of_steps
      (I := fun s : State => ∀ i o, fileOf s.calls i = some o → o.overwrote = false)
      (fun _ _ _ hs hq ht => opened_fresh hs hq ht) (initial directory) actions
        (by simp [initial, fileOf]) hnew
    exact hfresh.imp fun s hs c hc _ o ho => by
      obtain ⟨i, hi⟩ := mem_calls_fileOf.mp ⟨c, hc, ho⟩
      exact hs i o hi
  · rintro ⟨hnew, -⟩
    exact Runs.EveryStep.imp_of_always
      (fun _ a _ hs _ => (opensNew_iff_stampFree hs a).mp) htraced hnew

/-- One whole call that succeeds, as call `i` of the run, in the second `now`. -/
def successfulWrite (i process : Nat) (payload : Bytes) (now : Nat) : List Action :=
  [.enter process payload true, .stamp i now, .bump i, .openFile i true now,
    .write i payload.length payload.length now, .close i payload.length now]

/-- Two processes write their first report in the same second. -/
def twoFirstReports : List Action :=
  successfulWrite 0 1 (ascii "first") 100 ++ successfulWrite 1 2 (ascii "second") 100

theorem twoFirstReports_collide :
    ¬ Runs.EveryStep step OpensNew (initial (ascii "/tmp")) twoFirstReports ∧
      ¬ Runs.Always step NoOverwrite (initial (ascii "/tmp")) twoFirstReports ∧
      (Runs.exec step (initial (ascii "/tmp")) twoFirstReports).map
        (fun s => (s.calls.map fun c => c.phase.result, s.disk.entries.length)) =
        some ([some 0, some 0], 1) := by
  decide

/-! ## Which reports are whole -/

/-- Every `.json` report holds the whole payload of the call that wrote it, and no
call that returned -1 opened a file. -/
def Intact (s : State) : Prop :=
  (∀ e ∈ s.disk.entries, hasSuffix e.1 (ascii ".json") →
    ∀ f ∈ s.disk.files[e.2]?, ∀ c ∈ s.calls[f.writer]?, f.content = c.payload) ∧
  ∀ c ∈ s.calls, c.phase.result = some (-1) → c.phase.file = none

instance (s : State) : Decidable (Intact s) :=
  inferInstanceAs (Decidable ((∀ e ∈ _, _ → ∀ f ∈ _, ∀ c ∈ _, _) ∧ ∀ c ∈ _, _ → _))

/-- A file is opened only for an empty payload. -/
def WritesNothing (s : State) (a : Action) : Prop := ∀ c ∈ opener s a, c.payload = []

/-- Nothing was ever written. -/
structure Blank (s : State) : Prop where
  files : ∀ f ∈ s.disk.files, f.content = [] ∧ ∃ c, s.calls[f.writer]? = some c ∧ c.payload = []
  calls : ∀ c ∈ s.calls, c.phase.file ≠ none → c.payload = [] ∧ c.phase.result ≠ some (-1)
  taken : ∀ c ∈ s.calls, ∀ o accepted reached, c.phase = .written o accepted reached →
    accepted ≤ c.payload.length

theorem initial_blank (directory : Bytes) : Blank (initial directory) := by
  constructor <;> simp [initial]

theorem mem_setPhase {s : State} {i : Nat} {c c' : Call} {phase : Phase}
    (hc : s.calls[i]? = some c) (h : c' ∈ (s.setPhase i phase).calls) :
    c' ∈ s.calls ∨ c' = { c with phase := phase } := by
  obtain ⟨j, hj⟩ := List.mem_iff_getElem?.mp h
  rw [State.setPhase, List.getElem?_modify] at hj
  by_cases hij : i = j
  · subst hij
    simp only [hc, if_true, Option.map_eq_map, Option.map_some, Option.some.injEq] at hj
    exact .inr hj.symm
  · simp only [hij, if_false, Option.map_eq_map, Option.map_id'] at hj
    exact .inl (List.mem_of_getElem? hj)

/-- The payloads of the calls stay what they are. -/
theorem payload_setPhase {s : State} (i : Nat) (phase : Phase) {k : Nat} {d : Call}
    (hk : s.calls[k]? = some d) :
    ∃ d', (s.setPhase i phase).calls[k]? = some d' ∧ d'.payload = d.payload := by
  rw [State.setPhase, List.getElem?_modify, hk]
  by_cases hik : i = k
  · exact ⟨{ d with phase := phase }, by simp [hik], rfl⟩
  · exact ⟨d, by simp [hik], rfl⟩

theorem Blank.setPhase {s : State} (hs : Blank s) {i : Nat} {c : Call} {phase : Phase} {disk : Disk}
    (counters : Nat → Nat) (hc : s.calls[i]? = some c)
    (hfiles : ∀ f ∈ disk.files, f.content = [] ∧ ∃ d, s.calls[f.writer]? = some d ∧ d.payload = [])
    (hopened : phase.file ≠ none → c.payload = [] ∧ phase.result ≠ some (-1))
    (htaken : ∀ o accepted reached, phase = .written o accepted reached →
      accepted ≤ c.payload.length) :
    Blank { s.setPhase i phase with disk := disk, counters := counters } := by
  refine ⟨fun f hf => ?_, fun d hd => ?_, fun d hd => ?_⟩
  · obtain ⟨hcontent, d, hd, hpayload⟩ := hfiles f hf
    obtain ⟨d', hd', hsame⟩ := payload_setPhase i phase hd
    exact ⟨hcontent, d', hd', hsame.trans hpayload⟩
  · rcases mem_setPhase hc hd with hd | rfl
    · exact hs.calls d hd
    · exact hopened
  · rcases mem_setPhase hc hd with hd | rfl
    · exact hs.taken d hd
    · exact htaken

theorem step_blank (s : State) (a : Action) (t : State) (hs : Blank s) (hq : WritesNothing s a)
    (h : step s a = some t) : Blank t := by
  cases step_effect h with
  | entered c hfile hresult =>
    refine ⟨fun f hf => ?_, fun d hd => ?_, fun d hd => ?_⟩
    · obtain ⟨hcontent, d, hd, hpayload⟩ := hs.files f hf
      have hlt := (List.getElem?_eq_some_iff.mp hd).1
      exact ⟨hcontent, d, by rw [List.getElem?_append_left hlt]; exact hd, hpayload⟩
    · rcases List.mem_append.mp hd with hd | hd
      · exact hs.calls d hd
      · rw [List.mem_singleton.mp hd]
        exact fun hopen => absurd hfile hopen
    · rcases List.mem_append.mp hd with hd | hd
      · exact hs.taken d hd
      · rw [List.mem_singleton.mp hd]
        intro o accepted reached hphase
        rw [hphase] at hfile
        cases hfile
  | moved i c phase counters hc hno hfile hresult =>
    refine hs.setPhase counters hc hs.files (fun hopen => absurd hfile hopen) ?_
    rintro o accepted reached rfl
    cases hfile
  | opened i c second counter now ha hc hphase =>
    have hempty := hq c (by rw [ha]; exact opener_opened now hc hphase)
    have hnew : ∀ f : File, f = ⟨[], now, i⟩ →
        f.content = [] ∧ ∃ d, s.calls[f.writer]? = some d ∧ d.payload = [] := by
      rintro f rfl
      exact ⟨rfl, c, hc, hempty⟩
    rcases openFor_cases s i second counter now with ⟨file, -, ht⟩ | ⟨-, ht⟩
    · rw [ht]
      refine hs.setPhase s.counters hc (fun f hf => ?_) (fun _ => ⟨hempty, by simp [Phase.result]⟩)
        (by rintro _ _ _ ⟨⟩)
      rcases List.mem_or_eq_of_mem_set hf with hf | hf
      · exact hs.files f hf
      · exact hnew f hf
    · rw [ht]
      refine hs.setPhase s.counters hc (fun f hf => ?_) (fun _ => ⟨hempty, by simp [Phase.result]⟩)
        (by rintro _ _ _ ⟨⟩)
      rcases List.mem_append.mp hf with hf | hf
      · exact hs.files f hf
      · exact hnew f (List.mem_singleton.mp hf)
  | stored i c o phase offset data now hc hold hfile hdata hwritten hresult =>
    have hmem := List.mem_of_getElem? hc
    obtain ⟨hempty, -⟩ := hs.calls c hmem (by rw [hold]; exact Option.some_ne_none o)
    have hnil : data = [] := List.length_eq_zero_iff.mp (by simpa [hempty] using hdata)
    have hdisk : s.disk.store o.file offset data now = s.disk := by rw [Disk.store, if_pos hnil]
    rw [hdisk]
    refine hs.setPhase s.counters hc hs.files (fun _ => ⟨hempty, fun hres => ?_⟩) hwritten
    obtain ⟨accepted, reached, hphase, hne⟩ := hresult hres
    have hle := hs.taken c hmem o accepted reached hphase
    rw [hempty, List.length_nil] at hle hne
    exact hne (Nat.le_zero.mp hle)
  | passed disk passes hdisk =>
    have hfiles : disk.files = s.disk.files := by
      rcases hdisk with rfl | ⟨path, rfl⟩ <;> rfl
    exact ⟨by rw [hfiles]; exact hs.files, hs.calls, hs.taken⟩

theorem Blank.intact {s : State} (hs : Blank s) : Intact s := by
  refine ⟨fun e _ _ f hf c hc => ?_, fun c hc hresult => ?_⟩
  · obtain ⟨hcontent, d, hd, hpayload⟩ := hs.files f (List.mem_of_getElem? hf)
    obtain rfl : d = c := Option.some.inj (hd.symm.trans hc)
    rw [hcontent, hpayload]
  · by_contra hopen
    exact (hs.calls c hc hopen).2 hresult

theorem eventPath_json (directory : Bytes) (second counter : Nat) :
    hasSuffix (eventPath directory second counter) (ascii ".json") = true := by
  rw [hasSuffix, List.isSuffixOf_iff_suffix]
  exact List.suffix_append _ _

/-- Right after an `open` the file is there, listed and empty. -/
theorem openFor_intact {s : State} (hs : Traced s) {i : Nat} {c : Call} {second counter now : Nat}
    (hc : s.calls[i]? = some c) (h : Intact (s.openFor i second counter now)) : c.payload = [] := by
  have hjson := eventPath_json s.directory second counter
  rcases openFor_cases s i second counter now with ⟨file, hlookup, ht⟩ | ⟨-, ht⟩
  · rw [ht] at h
    have hmem := lookup_some hlookup
    obtain ⟨j, q, hq, hqfile⟩ := hs.maker _ hmem
    have hlt : file < s.disk.files.length := lt_of_eq_of_lt hqfile.symm (hs.bound j q hq)
    obtain ⟨c', hc', hsame⟩ := payload_setPhase i (.opened ⟨second, counter, file, true⟩) hc
    have hempty := h.1 _ hmem hjson ⟨[], now, i⟩ (by simp [hlt]) c' hc'
    rw [← hsame, ← hempty]
  · rw [ht] at h
    obtain ⟨c', hc', hsame⟩ := payload_setPhase i
      (.opened ⟨second, counter, s.disk.files.length, false⟩) hc
    have hempty := h.1 _ (List.mem_append_right _ (List.mem_singleton_self _)) hjson ⟨[], now, i⟩
      (by simp) c' hc'
    rw [← hsame, ← hempty]

/-- In every run, every report is whole at every point, and a failed write leaves
nothing behind, if and only if nothing is ever written: the file is in the directory
from its `open` on. -/
theorem reports_intact_iff (directory : Bytes) (actions : List Action) :
    Runs.Always step Intact (initial directory) actions ↔
      Runs.EveryStep step WritesNothing (initial directory) actions := by
  have htraced := Runs.always_of_invariant step_traced _ actions (initial_traced directory)
  constructor
  · refine Runs.Always.everyStep (fun s a t hs ht hintact => ?_) htraced
    intro c hopener
    cases a with
    | openFile i opens now =>
      cases opens with
      | false => cases hopener
      | true =>
        obtain ⟨hc, hstamp⟩ := Option.filter_eq_some_iff.mp hopener
        cases hphase : c.phase with
        | named second counter =>
          have hstep : step s (.openFile i true now) = some (s.openFor i second counter now) := by
            simp [step, hc, stepCall, hphase]
          obtain rfl := Option.some.inj (hstep.symm.trans ht)
          exact openFor_intact hs hc hintact
        | _ => simp [hphase, Phase.stamp] at hstamp
    | _ => cases hopener
  · intro h
    exact (Runs.always_of_steps step_blank _ actions (initial_blank directory) h).imp
      fun _ hs => hs.intact

/-- A write that comes up short: the report stays, cut, though the call returns -1. -/
def shortWrite : List Action :=
  [.enter 1 (ascii "payload") true, .stamp 0 100, .bump 0, .openFile 0 true 100, .write 0 3 3 100,
    .close 0 3 100]

theorem shortWrite_leaves_prefix :
    ¬ Runs.Always step Intact (initial (ascii "/tmp")) shortWrite ∧
      (Runs.exec step (initial (ascii "/tmp")) shortWrite).map
        (fun s => (s.calls.map fun c => c.phase.result, s.disk.entries.length,
          s.disk.files.map File.content)) =
        some ([some (-1)], 1, [ascii "pay"]) := by
  decide

end ForgeOps.CrashStore
