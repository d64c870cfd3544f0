import ForgeOpsTracker.CrashStoreWrites
import ForgeOpsTracker.Lib.Newest

/-! In which order the reports of one process are listed, and which of them are
deleted. -/

namespace ForgeOps.CrashStore

/-! ## Writing reports one after the other -/

/-- Successful writes of one process, from its call `i` on: each in its second, with
its payload. -/
def writeAll (process : Nat) : Nat → List (Nat × Bytes) → List Action
  | _, [] => []
  | i, w :: ws => successfulWrite i process w.2 w.1 ++ writeAll process (i + 1) ws

theorem modify_concat {α : Type*} (f : α → α) (l : List α) (a : α) :
    (l ++ [a]).modify l.length f = l ++ [f a] := by
  induction l with
  | nil => rfl
  | cons b l ih => simp [ih]

theorem store_whole (disk : Disk) (f : File) (path payload : Bytes) (now : Nat)
    (hf : f.content = [] ∧ f.modifiedAt = now) :
    ({ files := disk.files ++ [f], entries := disk.entries ++ [(path, disk.files.length)] } :
      Disk).store disk.files.length 0 payload now =
      { files := disk.files ++ [{ f with content := payload }]
        entries := disk.entries ++ [(path, disk.files.length)] } := by
  obtain ⟨hcontent, hnow⟩ := hf
  unfold Disk.store
  split
  · rename_i hnil
    rw [hnil, ← hcontent]
  · rw [modify_concat, hcontent, ← hnow]
    simp [Disk.writeAt]

theorem store_nothing (disk : Disk) (file offset now : Nat) :
    disk.store file offset [] now = disk :=
  if_pos rfl

/-- What a successful write under a new path leaves. -/
def State.afterWrite (s : State) (process now : Nat) (payload : Bytes) : State :=
  let counter := s.counters process
  { s with
    counters := Function.update s.counters process (counter + 1)
    calls := s.calls ++
      [⟨process, payload, .returned 0 (some ⟨now, counter, s.disk.files.length, false⟩)⟩]
    disk :=
      { files := s.disk.files ++ [⟨payload, now, s.calls.length⟩]
        entries := s.disk.entries ++ [(eventPath s.directory now counter, s.disk.files.length)] } }

theorem exec_successfulWrite {s : State} {process now : Nat} (payload : Bytes)
    (hnew : s.disk.lookup (eventPath s.directory now (s.counters process)) = none) :
    Runs.exec step s (successfulWrite s.calls.length process payload now) =
      some (s.afterWrite process now payload) := by
  have hopen : ∀ writer, s.disk.openForWriting (eventPath s.directory now (s.counters process)) now
      writer = (⟨s.disk.files ++ [⟨[], now, writer⟩], s.disk.entries ++
        [(eventPath s.directory now (s.counters process), s.disk.files.length)]⟩,
        s.disk.files.length) := by
    intro writer
    simp [Disk.openForWriting, hnew]
  simp [successfulWrite, Runs.exec_cons, step, stepCall, State.setPhase, modify_concat,
    State.openFor, hopen, hnew, store_whole, store_nothing, State.afterWrite]

/-- The path of the report a counter and a write in its second make. -/
def pathOf (directory : Bytes) (w : (Nat × Bytes) × Nat) : Bytes := eventPath directory w.1.1 w.2

def pendingOf (directory : Bytes) (w : (Nat × Bytes) × Nat) : Pending := ⟨pathOf directory w, w.1.1⟩

/-- The reports the writes leave, in the order they were written. -/
def written (directory : Bytes) (ws : List (Nat × Bytes)) : List Pending :=
  ws.zipIdx.map (pendingOf directory)

theorem exec_writeAll (process : Nat) (ws : List (Nat × Bytes)) {s : State} {i : Nat}
    (hcalls : s.calls.length = i) (hcounter : s.counters process = i)
    (hfiles : s.disk.files.length = i)
    (hfresh : ∀ second c, i ≤ c → s.disk.lookup (eventPath s.directory second c) = none) :
    ∃ t, Runs.exec step s (writeAll process i ws) = some t ∧
      t.disk.files = s.disk.files ++ (ws.zipIdx i).map (fun w => ⟨w.1.2, w.1.1, w.2⟩) ∧
      t.disk.entries =
        s.disk.entries ++ (ws.zipIdx i).map fun w => (eventPath s.directory w.1.1 w.2, w.2) := by
  induction ws generalizing s i with
  | nil => exact ⟨s, rfl, by simp, by simp⟩
  | cons w ws ih =>
    obtain ⟨now, payload⟩ := w
    subst hcalls
    have hwrite := @exec_successfulWrite s process now payload
      (by rw [hcounter]; exact hfresh now _ (Nat.le_refl _))
    obtain ⟨t, ht, htfiles, htentries⟩ := ih (s := s.afterWrite process now payload)
      (i := s.calls.length + 1) (by simp [State.afterWrite]) (by simp [State.afterWrite, hcounter])
      (by simp [State.afterWrite, hfiles]) (by
        intro second c hc
        have hne : eventPath s.directory now s.calls.length ≠ eventPath s.directory second c :=
          fun h => by have := (eventPath_injective h).2; omega
        have hold := hfresh second c (by omega)
        simp only [Disk.lookup, Option.map_eq_none_iff] at hold ⊢
        simp [State.afterWrite, List.find?_append, hold, hcounter, hne])
    refine ⟨t, ?_, ?_, ?_⟩
    · rw [writeAll, Runs.exec_append, hwrite]
      exact ht
    · rw [htfiles]
      simp [State.afterWrite]
    · rw [htentries]
      simp [State.afterWrite, hcounter, hfiles]

theorem found_all {directory : Bytes} {process : Nat} {ws : List (Nat × Bytes)} {t : State}
    (ht : Runs.exec step (initial directory) (writeAll process 0 ws) = some t) :
    found t.disk t.disk.entries = written directory ws := by
  obtain ⟨t', ht', hfiles, hentries⟩ := exec_writeAll process ws (s := initial directory) (i := 0)
    rfl rfl rfl (fun _ _ _ => rfl)
  obtain rfl := Option.some.inj (ht.symm.trans ht')
  simp only [initial, List.nil_append] at hfiles hentries
  have hall : t.disk.entries.filter (fun e => isReport e.1) = t.disk.entries := by
    refine List.filter_eq_self.mpr fun e he => ?_
    rw [hentries] at he
    obtain ⟨w, -, rfl⟩ := List.mem_map.mp he
    simp [isReport, eventPath_json]
  rw [found, hall, hentries, List.map_map]
  refine List.map_congr_left fun w hw => ?_
  have hget := List.mk_mem_zipIdx_iff_getElem?.mp hw
  simp [hfiles, hget, pendingOf, pathOf]

/-- What a listing finds after the writes, in whatever order it reads the directory. -/
theorem found_after_writes {directory : Bytes} {process : Nat} {ws : List (Nat × Bytes)} {t : State}
    (ht : Runs.exec step (initial directory) (writeAll process 0 ws) = some t)
    {entries : List (Bytes × Nat)} (hperm : entries.Perm t.disk.entries) :
    (found t.disk entries).Perm (written directory ws) :=
  ((hperm.filter _).map _).trans (List.Perm.of_eq (found_all ht))

/-! ## The order of the listing -/

instance : Std.Total Pending.le where
  total a b := by
    rcases Nat.lt_trichotomy a.modifiedAt b.modifiedAt with h | h | h
    · exact .inl (.inl h)
    · rcases List.le_total a.path b.path with hp | hp
      · exact .inl (.inr ⟨h, hp⟩)
      · exact .inr (.inr ⟨h.symm, hp⟩)
    · exact .inr (.inl h)

instance : IsTrans Pending Pending.le where
  trans a b c := by
    rintro (hab | ⟨hab, hpab⟩) (hbc | ⟨hbc, hpbc⟩)
    · exact .inl (hab.trans hbc)
    · exact .inl (hbc ▸ hab)
    · exact .inl (hab ▸ hbc)
    · exact .inr ⟨hab.trans hbc, List.le_trans hpab hpbc⟩

instance : Std.Antisymm Pending.le where
  antisymm a b := by
    rintro (hab | ⟨hab, hpab⟩) (hba | ⟨hba, hpba⟩)
    · omega
    · omega
    · omega
    · cases a
      cases b
      simp only [Pending.mk.injEq] at *
      exact ⟨List.le_antisymm hpab hpba, hab⟩

theorem append_le_append_iff (a : Bytes) {b c : Bytes} : a ++ b ≤ a ++ c ↔ b ≤ c := by
  refine ⟨fun h => ?_, List.append_left_le⟩
  by_contra hbc
  exact absurd h (not_not.mpr (List.append_left_lt (not_not.mp hbc)))

theorem eventPath_le_iff (directory : Bytes) (second : Nat) {i j : Nat} (h : i < j) :
    eventPath directory second i ≤ eventPath directory second j ↔
      i ≤ j / 10 ^ ((decimal j).length - (decimal i).length) := by
  simp only [eventPath, List.append_assoc, append_le_append_iff]
  exact decimal_dot_le_iff h (ascii "json")

/-- The reports that are young enough, each with its second, its payload and its counter,
in the order they were written. -/
def young (now : Nat) (ws : List (Nat × Bytes)) : List ((Nat × Bytes) × Nat) :=
  ws.zipIdx.filter fun w => ¬ tooOld now w.1.1

/-- The last twenty of them. -/
def newest (now : Nat) (ws : List (Nat × Bytes)) : List ((Nat × Bytes) × Nat) :=
  (young now ws).drop ((young now ws).length - maxPending)

/-- The ones that are too old, and the earliest of those that are not. -/
def earliest (now : Nat) (ws : List (Nat × Bytes)) : List ((Nat × Bytes) × Nat) :=
  (ws.zipIdx.filter fun w => tooOld now w.1.1) ++
    (young now ws).take ((young now ws).length - maxPending)

/-- Of two young reports of one second, the later among the last twenty, the earlier one's
counter is at most the later one's cut to as many digits. -/
def CountersSort (now : Nat) (ws : List (Nat × Bytes)) : Prop :=
  ∀ x ∈ young now ws, ∀ y ∈ newest now ws, x.2 < y.2 → x.1.1 = y.1.1 →
    x.2 ≤ y.2 / 10 ^ ((decimal y.2).length - (decimal x.2).length)

instance (now : Nat) (ws : List (Nat × Bytes)) : Decidable (CountersSort now ws) :=
  inferInstanceAs (Decidable (∀ x ∈ _, ∀ y ∈ _, _ → _ → _))

theorem pendingOf_injective (directory : Bytes) {x y : (Nat × Bytes) × Nat}
    (h : pathOf directory x = pathOf directory y) :
    pendingOf directory x = pendingOf directory y := by
  rw [pendingOf, pendingOf, h, (eventPath_injective h).1]

/-- Lists of reports with the same paths are the same. -/
theorem map_path_inj {directory : Bytes} {xs ys : List Pending}
    (hxs : ∀ p ∈ xs, ∃ w, p = pendingOf directory w)
    (hys : ∀ p ∈ ys, ∃ w, p = pendingOf directory w)
    (h : xs.map Pending.path = ys.map Pending.path) : xs = ys := by
  induction xs generalizing ys with
  | nil => exact (List.map_eq_nil_iff.mp h.symm).symm
  | cons x xs ih =>
    cases ys with
    | nil => cases h
    | cons y ys =>
      obtain ⟨hxy, hrest⟩ := List.cons.inj h
      obtain ⟨v, rfl⟩ := hxs x List.mem_cons_self
      obtain ⟨w, rfl⟩ := hys y List.mem_cons_self
      rw [pendingOf_injective directory hxy, ih (fun p hp => hxs p (List.mem_cons_of_mem _ hp))
        (fun p hp => hys p (List.mem_cons_of_mem _ hp)) hrest]

/-- The young reports stand in the order of their counters, and of the clock. -/
theorem young_pairwise {ws : List (Nat × Bytes)} (hclock : ws.Pairwise fun a b => a.1 ≤ b.1)
    (now : Nat) : (young now ws).Pairwise fun x y => x.2 < y.2 ∧ x.1.1 ≤ y.1.1 := by
  refine List.Pairwise.filter _ (List.pairwise_iff_getElem.mpr fun i j hi hj hij => ?_)
  rw [List.length_zipIdx] at hi hj
  simp only [List.getElem_zipIdx, Nat.zero_add]
  exact ⟨hij, List.pairwise_iff_getElem.mp hclock i j hi hj hij⟩

theorem countersSort_iff (directory : Bytes) {ws : List (Nat × Bytes)}
    (hclock : ws.Pairwise fun a b => a.1 ≤ b.1) (now : Nat) :
    let l := (young now ws).map (pendingOf directory)
    CountersSort now ws ↔ ∀ (a b : Nat) (hab : a < b) (hb : b < l.length),
      l.length - maxPending ≤ b → Pending.le l[a] l[b] := by
  have hpair := List.pairwise_iff_getElem.mp (young_pairwise hclock now)
  intro l
  have hlen : l.length = (young now ws).length := List.length_map ..
  constructor
  · intro hsort a b hab hb he
    rw [hlen] at hb he
    obtain ⟨hcounter, hsecond⟩ := hpair a b (hab.trans hb) hb hab
    simp only [l, List.getElem_map]
    rcases Nat.lt_or_eq_of_le hsecond with hlt | heq
    · exact .inl hlt
    · have hnewest : (young now ws)[b] ∈ newest now ws :=
        List.mem_drop_iff_getElem.mpr ⟨b - ((young now ws).length - maxPending), by omega,
          by simp only [Nat.add_sub_cancel' he]⟩
      refine .inr ⟨heq, ?_⟩
      simp only [pendingOf, pathOf, ← heq]
      exact (eventPath_le_iff directory _ hcounter).mpr
        (hsort _ (List.getElem_mem _) _ hnewest hcounter heq)
  · intro h x hx y hy hxy hsecond
    obtain ⟨a, ha, rfl⟩ := List.getElem_of_mem hx
    obtain ⟨k, hk, rfl⟩ := List.mem_drop_iff_getElem.mp hy
    have hab : a < (young now ws).length - maxPending + k := by
      rcases Nat.lt_trichotomy a ((young now ws).length - maxPending + k) with hlt | heq | hgt
      · exact hlt
      · subst heq
        exact absurd hxy (Nat.lt_irrefl _)
      · exact absurd hxy (Nat.lt_asymm (hpair _ _ _ ha hgt).1)
    have hle := h a _ hab (by rw [hlen]; omega) (by rw [hlen]; omega)
    simp only [l, List.getElem_map, Pending.le, pendingOf, pathOf] at hle
    rcases hle with hlt | ⟨-, hpath⟩
    · omega
    · rw [← hsecond] at hpath
      exact (eventPath_le_iff directory _ hxy).mp hpath

theorem pendingPaths_iff {directory : Bytes} {ws : List (Nat × Bytes)}
    (hclock : ws.Pairwise fun a b => a.1 ≤ b.1) (now : Nat) {found : List Pending}
    (hfound : found.Perm (written directory ws)) :
    ((pendingPaths found now).listed = (newest now ws).map (pathOf directory) ∧
      (pendingPaths found now).deleted.Perm ((earliest now ws).map (pathOf directory))) ↔
      CountersSort now ws := by
  have hkept : (found.filter fun p => ¬ tooOld now p.modifiedAt).Perm
      ((young now ws).map (pendingOf directory)) := by
    refine (hfound.filter _).trans (List.Perm.of_eq ?_)
    rw [written, List.filter_map]
    rfl
  have hold : (found.filter fun p => tooOld now p.modifiedAt).Perm
      ((ws.zipIdx.filter fun w => tooOld now w.1.1).map (pendingOf directory)) := by
    refine (hfound.filter _).trans (List.Perm.of_eq ?_)
    rw [written, List.filter_map]
    rfl
  have hnewest : (newest now ws).map (pathOf directory) = (((young now ws).map
      (pendingOf directory)).drop ((young now ws).length - maxPending)).map Pending.path := by
    rw [← List.map_drop, List.map_map]
    rfl
  have hearliest : (earliest now ws).map (pathOf directory) =
      ((ws.zipIdx.filter fun w => tooOld now w.1.1).map (pendingOf directory)).map Pending.path ++
        (((young now ws).map (pendingOf directory)).take
          ((young now ws).length - maxPending)).map Pending.path := by
    rw [← List.map_take, List.map_map, List.map_map, ← List.map_append]
    rfl
  have hwritten : ∀ p ∈ (young now ws).map (pendingOf directory), ∃ w, p =
      pendingOf directory w := by
    intro p hp
    obtain ⟨w, -, rfl⟩ := List.mem_map.mp hp
    exact ⟨w, rfl⟩
  refine Iff.trans ?_ ((Newest.insertionSort_drop_iff Pending.le hkept _).trans
    (countersSort_iff directory hclock now).symm)
  simp only [pendingPaths, List.length_insertionSort, hkept.length_eq, List.length_map, hnewest,
    hearliest, List.map_append]
  constructor
  · rintro ⟨hlisted, -⟩
    refine map_path_inj (fun p hp => hwritten p ?_)
      (fun p hp => hwritten p (List.mem_of_mem_drop hp))
      hlisted
    exact hkept.mem_iff.mp (List.mem_insertionSort _ |>.mp (List.mem_of_mem_drop hp))
  · intro hdrop
    refine ⟨congrArg _ hdrop, (hold.map _).append ?_⟩
    exact (Newest.insertionSort_take_perm Pending.le hkept hdrop).map _

/-- After any successful writes of one process the listing is in the order they were
written, and what it deletes is the earliest, if and only if the counters of the
reports that share a second sort as text the way they count. -/
theorem pending_in_written_order_iff (directory : Bytes) (process : Nat) (ws : List (Nat × Bytes))
    (hclock : ws.Pairwise fun a b => a.1 ≤ b.1) :
    ∃ t, Runs.exec step (initial directory) (writeAll process 0 ws) = some t ∧
      ∀ now entries, entries.Perm t.disk.entries →
        (((pendingPaths (found t.disk entries) now).listed =
              (newest now ws).map (pathOf directory) ∧
            (pendingPaths (found t.disk entries) now).deleted.Perm
              ((earliest now ws).map (pathOf directory))) ↔
          CountersSort now ws) := by
  obtain ⟨t, ht, -⟩ := exec_writeAll process ws (s := initial directory) (i := 0) rfl rfl rfl
    (fun _ _ _ => rfl)
  refine ⟨t, ht, fun now entries hperm => ?_⟩
  exact pendingPaths_iff hclock now (found_after_writes ht hperm)

def threeReports : List (Nat × Bytes) :=
  [(100, ascii "first"), (100, ascii "second"), (101, ascii "third")]

theorem pending_in_written_order_iff_three :
    ∃ t, Runs.exec step (initial (ascii "/tmp")) (writeAll 1 0 threeReports) = some t ∧
      ∀ now entries, entries.Perm t.disk.entries →
        (((pendingPaths (found t.disk entries) now).listed =
              (newest now threeReports).map (pathOf (ascii "/tmp")) ∧
            (pendingPaths (found t.disk entries) now).deleted.Perm
              ((earliest now threeReports).map (pathOf (ascii "/tmp")))) ↔
          CountersSort now threeReports) :=
  pending_in_written_order_iff (ascii "/tmp") 1 threeReports (by decide)

/-- Eleven reports of one second: the eleventh, with counter 10, is listed as the third. -/
def elevenReports : List (Nat × Bytes) := List.replicate 11 (100, ascii "report")

theorem elevenReports_out_of_order :
    ∃ t, Runs.exec step (initial (ascii "/tmp")) (writeAll 1 0 elevenReports) = some t ∧
      (pendingPaths (found t.disk t.disk.entries) 200).listed ≠
        (newest 200 elevenReports).map (pathOf (ascii "/tmp")) := by
  obtain ⟨t, ht, -⟩ := exec_writeAll 1 elevenReports (s := initial (ascii "/tmp")) (i := 0) rfl rfl
    rfl (fun _ _ _ => rfl)
  refine ⟨t, ht, ?_⟩
  rw [found_all ht]
  decide

end ForgeOps.CrashStore
