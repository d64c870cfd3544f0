import ForgeOpsTracker.Lib.Runs
import ForgeOpsTracker.Lib.Double
import ForgeOpsTracker.Lib.Calendar
import ForgeOpsTracker.Client
import ForgeOpsTracker.Configuration
import ForgeOpsTracker.JsonText

/-! One of the two independent metric buffers, and the threads that record into
it and flush it.

Every lock-held section is one step. `forgeops_metrics_flush` is two of them with
the delivery in between, so the state holds, besides the buffer, the flushes that
have taken their snapshot and not yet come back. The periodic worker, an explicit
flush and the exit hook all call that one function: which of them a flush belongs
to makes no difference to it, and nothing keeps two of them apart. -/

namespace ForgeOps.Metrics
open Client

def maxEntries : Nat := 1000
def maxConsecutiveFailures : Nat := 5

/-- `a - b` on `size_t`. -/
def sizeSub (a b : Nat) : Nat := if b ≤ a then a - b else a + 2 ^ 64 - b

/-- One `malloc`'d entry: where it lives and its JSON text. -/
structure Entry where
  addr : Nat
  json : Bytes
  deriving DecidableEq, Repr

/-- `buffer_t`. `entries` are the slots written so far; the first `count` are in
use, and the ones behind them still hold what was last stored there. -/
structure Buffer where
  entries : List Entry
  count : Nat
  consecutiveFailures : Nat
  deriving DecidableEq, Repr

/-- A `forgeops_metrics_flush` between its snapshot and its removal: its local
`count` and the entries it joined into the body. -/
structure Flush where
  count : Nat
  batch : List Entry
  deriving DecidableEq, Repr

/-- `freed` lists the arguments of every `free` of an entry, in order. -/
structure State where
  buffer : Buffer
  flushes : List Flush
  nextAddr : Nat
  freed : List Nat
  deriving DecidableEq, Repr

def initial : State := ⟨⟨[], 0, 0⟩, [], 0, []⟩

/-- The entries in use. -/
def Buffer.live (b : Buffer) : List Entry := b.entries.take b.count

/-! ## The lock-held sections -/

def entryText (fieldsJson : Bytes) (now : Nat) : Bytes :=
  ascii "\x7b" ++ fieldsJson ++ ascii ",\"recorded_at\":" ++
    JsonText.jsonString (Calendar.timestamp now) ++ ascii "\x7d"

def bodyText (batch : List Entry) : Bytes :=
  ascii "\x7b\"metrics\":[" ++ JsonText.commaSeparated (batch.map Entry.json) ++ ascii "]\x7d"

/-- `forgeops_metrics_record`; `allocated` is whether `forgeops_strbuf_init`
succeeds. The result says whether the entry was kept. -/
def record (s : State) (config : Option Configuration) (value : Double)
    (fieldsJson : Option Bytes) (now : Nat) (allocated : Bool) : State × Bool :=
  match config, fieldsJson with
  | some _, some fields =>
    if ¬ value.isfinite ∨ ¬ allocated then (s, false)
    else
      let entry : Entry := ⟨s.nextAddr, entryText fields now⟩
      let b := s.buffer
      if b.count ≥ maxEntries then
        ({ s with nextAddr := s.nextAddr + 1, freed := s.freed ++ [entry.addr] }, false)
      else
        ({ s with
            buffer := { b with
              entries := b.entries.take b.count ++ entry :: b.entries.drop (b.count + 1)
              count := b.count + 1 }
            nextAddr := s.nextAddr + 1 }, true)
  | _, _ => (s, false)

/-- `forgeops_metrics_flush` up to its first unlock. -/
def flushSnapshot (s : State) (allocated : Bool) : State :=
  if s.buffer.count = 0 ∨ ¬ allocated then s
  else { s with flushes := s.flushes ++ [⟨s.buffer.count, s.buffer.live⟩] }

/-- `memmove(entries, entries + start, n * sizeof(char *))`. With `start + n` past
the slots the C behaviour is undefined; the model moves what there is. -/
def memmove (entries : List Entry) (start n : Nat) : List Entry :=
  (entries.drop start).take n ++ entries.drop n

/-- Whether a flush that got `status` lets its batch go. -/
def letsGo (b : Buffer) (status : Int) : Bool :=
  deliveryOutcomeForStatus status ≠ .failed ||
    b.consecutiveFailures + 1 ≥ maxConsecutiveFailures

/-- The `count` entries at the front are freed and the rest moved down. -/
def removeBatch (s : State) (count : Nat) : State :=
  let b := s.buffer
  let left := sizeSub b.count count
  { s with
    buffer := { entries := memmove b.entries count left, count := left, consecutiveFailures := 0 }
    freed := s.freed ++ (b.entries.take count).map Entry.addr }

/-- `forgeops_metrics_flush` from its second lock on. -/
def flushRemoval (s : State) (f : Flush) (status : Int) : State :=
  if letsGo s.buffer status then removeBatch s f.count
  else { s with buffer := { s.buffer with
    consecutiveFailures := s.buffer.consecutiveFailures + 1 } }

inductive Action
  | record (config : Option Configuration) (value : Double) (fieldsJson : Option Bytes)
      (now : Nat) (allocated : Bool)
  | flushSnapshot (allocated : Bool)
  | flushRemoval (i : Nat) (status : Int)
  deriving DecidableEq, Repr

def step (s : State) : Action → Option State
  | .record config value fieldsJson now allocated =>
    some (record s config value fieldsJson now allocated).1
  | .flushSnapshot allocated => some (flushSnapshot s allocated)
  | .flushRemoval i status =>
    (s.flushes[i]?).map fun f => flushRemoval { s with flushes := s.flushes.eraseIdx i } f status

/-! ## What a step does to the entries in use -/

theorem live_length {b : Buffer} (h : b.count ≤ b.entries.length) : b.live.length = b.count := by
  simp [Buffer.live, h]

/-- A record either leaves the buffer alone, having allocated at most an entry it
freed again, or puts one new entry behind the ones in use. -/
theorem record_cases (s : State) (config : Option Configuration) (value : Double)
    (fieldsJson : Option Bytes) (now : Nat) (allocated : Bool)
    (hslots : s.buffer.count ≤ s.buffer.entries.length) :
    let t := (record s config value fieldsJson now allocated).1
    t = s ∨
    t = { s with nextAddr := s.nextAddr + 1, freed := s.freed ++ [s.nextAddr] } ∨
    (∃ e : Entry, e.addr = s.nextAddr ∧ s.buffer.count < maxEntries ∧
      t.buffer.live = s.buffer.live ++ [e] ∧ t.buffer.count = s.buffer.count + 1 ∧
      t.buffer.count ≤ t.buffer.entries.length ∧ t.flushes = s.flushes ∧
      t.nextAddr = s.nextAddr + 1 ∧ t.freed = s.freed) := by
  unfold record
  cases config with
  | none => exact .inl rfl
  | some config =>
    cases fieldsJson with
    | none => exact .inl rfl
    | some fields =>
      dsimp only
      split
      · exact .inl rfl
      · split
        · exact .inr (.inl rfl)
        · rename_i hfull
          refine .inr (.inr ⟨⟨s.nextAddr, entryText fields now⟩, rfl, Nat.lt_of_not_ge hfull,
            ?_, rfl, ?_, rfl, rfl, rfl⟩)
          · have hlen : (s.buffer.entries.take s.buffer.count).length = s.buffer.count := by
              simp [hslots]
            simp [Buffer.live, List.take_append, List.take_take, hlen]
          · simp only [List.length_append, List.length_take, List.length_cons]
            omega

/-- Removing no more than is in use takes exactly that many entries off the front. -/
theorem removeBatch_live {s : State} {count : Nat}
    (hslots : s.buffer.count ≤ s.buffer.entries.length) (hfits : count ≤ s.buffer.count) :
    (removeBatch s count).buffer.count = s.buffer.count - count ∧
    (removeBatch s count).buffer.live = s.buffer.live.drop count ∧
    (removeBatch s count).buffer.count ≤ (removeBatch s count).buffer.entries.length ∧
    (removeBatch s count).freed = s.freed ++ (s.buffer.live.take count).map Entry.addr ∧
    (removeBatch s count).flushes = s.flushes ∧ (removeBatch s count).nextAddr = s.nextAddr := by
  have hleft : sizeSub s.buffer.count count = s.buffer.count - count := if_pos hfits
  refine ⟨hleft, ?_, ?_, ?_, rfl, rfl⟩
  · simp only [removeBatch, hleft, Buffer.live, memmove]
    rw [List.take_append_of_le_length (by simp; omega), List.take_take, Nat.min_self,
      List.drop_take]
  · simp only [removeBatch, hleft, memmove, List.length_append, List.length_take, List.length_drop]
    omega
  · simp [removeBatch, Buffer.live, List.take_take, Nat.min_eq_left hfits]

/-! ## Soundness of the buffer -/

/-- Every slot in use holds an entry of its own that has not been freed. -/
structure Sound (s : State) : Prop where
  slots : s.buffer.count ≤ s.buffer.entries.length
  bound : s.buffer.count ≤ maxEntries
  owned : (s.freed ++ s.buffer.live.map Entry.addr).Nodup
  fresh : ∀ a ∈ s.freed ++ s.buffer.live.map Entry.addr, a < s.nextAddr
  taken : ∀ f ∈ s.flushes, f.count = f.batch.length

theorem initial_sound : Sound initial := by
  constructor <;> simp [initial, Buffer.live]

/-- The entries a flush took are still the first ones of the buffer when it lets
its batch go: no other flush has let one go since its snapshot. -/
def SnapshotStillFirst (s : State) : Action → Prop
  | .flushRemoval i status =>
    ∀ f ∈ s.flushes[i]?, letsGo s.buffer status → f.batch <+: s.buffer.live
  | _ => True

instance (s : State) : ∀ a, Decidable (SnapshotStillFirst s a)
  | .flushRemoval _ _ => inferInstanceAs (Decidable (∀ f ∈ _, _ → _))
  | .record .. => inferInstanceAs (Decidable True)
  | .flushSnapshot _ => inferInstanceAs (Decidable True)

/-- A removal step's snapshot count is at most the count it subtracts it from. -/
def RemovalFits (s : State) : Action → Prop
  | .flushRemoval i status =>
    ∀ f ∈ s.flushes[i]?, letsGo s.buffer status → f.count ≤ s.buffer.count
  | _ => True

instance (s : State) : ∀ a, Decidable (RemovalFits s a)
  | .flushRemoval _ _ => inferInstanceAs (Decidable (∀ f ∈ _, _ → _))
  | .record .. => inferInstanceAs (Decidable True)
  | .flushSnapshot _ => inferInstanceAs (Decidable True)

theorem removalFits_of_stillFirst {s : State} {a : Action} (hs : Sound s)
    (h : SnapshotStillFirst s a) : RemovalFits s a := by
  cases a with
  | flushRemoval i status =>
    intro f hf hgo
    have hle := (h f hf hgo).length_le
    rw [live_length hs.slots] at hle
    rw [hs.taken f (List.mem_of_getElem? hf)]
    exact hle
  | record => trivial
  | flushSnapshot => trivial

theorem record_sound {s : State} (hs : Sound s) (config : Option Configuration) (value : Double)
    (fieldsJson : Option Bytes) (now : Nat) (allocated : Bool) :
    Sound (record s config value fieldsJson now allocated).1 := by
  have hnew : s.nextAddr ∉ s.freed ++ s.buffer.live.map Entry.addr := fun h =>
    Nat.lt_irrefl _ (hs.fresh _ h)
  rcases record_cases s config value fieldsJson now allocated hs.slots with
    h | h | ⟨e, he, hroom, hlive, hcount, hslots, hflushes, hnext, hfreed⟩
  · rw [h]; exact hs
  · rw [h]
    refine ⟨hs.slots, hs.bound, ?_, ?_, hs.taken⟩
    · have hperm : (s.nextAddr :: (s.freed ++ s.buffer.live.map Entry.addr)).Perm
          (s.freed ++ [s.nextAddr] ++ s.buffer.live.map Entry.addr) := by
        simpa using List.perm_middle.symm
      exact hperm.nodup_iff.mp (List.nodup_cons.mpr ⟨hnew, hs.owned⟩)
    · intro a ha
      have := hs.fresh a
      simp only [List.mem_append, List.mem_singleton] at ha this
      rcases ha with (ha | rfl) | ha
      · exact Nat.lt_succ_of_lt (this (.inl ha))
      · exact Nat.lt_succ_self _
      · exact Nat.lt_succ_of_lt (this (.inr ha))
  · refine ⟨hslots, by omega, ?_, ?_, by rw [hflushes]; exact hs.taken⟩
    · rw [hfreed, hlive, List.map_append, ← List.append_assoc, List.map_singleton, he]
      exact List.nodup_append.mpr ⟨hs.owned, List.nodup_singleton _, by
        rintro a ha b hb rfl
        exact hnew (List.mem_singleton.mp hb ▸ ha)⟩
    · rw [hfreed, hlive, hnext]
      intro a ha
      rw [List.map_append, ← List.append_assoc, List.map_singleton, he] at ha
      rcases List.mem_append.mp ha with ha | ha
      · exact Nat.lt_succ_of_lt (hs.fresh a ha)
      · rw [List.mem_singleton.mp ha]
        exact Nat.lt_succ_self _

theorem flushSnapshot_sound {s : State} (hs : Sound s) (allocated : Bool) :
    Sound (flushSnapshot s allocated) := by
  unfold flushSnapshot
  split
  · exact hs
  · refine ⟨hs.slots, hs.bound, hs.owned, hs.fresh, fun f hf => ?_⟩
    rcases List.mem_append.mp hf with hf | hf
    · exact hs.taken f hf
    · rw [List.mem_singleton.mp hf]
      exact (live_length hs.slots).symm

theorem flushRemoval_sound {s : State} (hs : Sound s) (f : Flush) (status : Int)
    (hfits : letsGo s.buffer status → f.count ≤ s.buffer.count) :
    Sound (flushRemoval s f status) := by
  unfold flushRemoval
  split
  · rename_i hgo
    obtain ⟨hcount, hlive, hslots, hfreed, hflushes, hnext⟩ :=
      removeBatch_live hs.slots (hfits hgo)
    generalize removeBatch s f.count = t at *
    have hall : t.freed ++ t.buffer.live.map Entry.addr =
        s.freed ++ s.buffer.live.map Entry.addr := by
      rw [hfreed, hlive, List.append_assoc, ← List.map_append, List.take_append_drop]
    refine ⟨hslots, by have := hs.bound; omega, ?_, ?_, by rw [hflushes]; exact hs.taken⟩
    · rw [hall]; exact hs.owned
    · rw [hall, hnext]; exact hs.fresh
  · exact ⟨hs.slots, hs.bound, hs.owned, hs.fresh, hs.taken⟩

theorem step_sound (s : State) (a : Action) (t : State) (hs : Sound s)
    (hq : SnapshotStillFirst s a) (ht : step s a = some t) : Sound t := by
  have hfits := removalFits_of_stillFirst hs hq
  cases a with
  | record config value fieldsJson now allocated =>
    obtain rfl := Option.some.inj ht
    exact record_sound hs ..
  | flushSnapshot allocated =>
    obtain rfl := Option.some.inj ht
    exact flushSnapshot_sound hs allocated
  | flushRemoval i status =>
    obtain ⟨f, hf, rfl⟩ := Option.map_eq_some_iff.mp ht
    have hs' : Sound { s with flushes := s.flushes.eraseIdx i } :=
      ⟨hs.slots, hs.bound, hs.owned, hs.fresh, fun g hg => hs.taken g (List.mem_of_mem_eraseIdx hg)⟩
    exact flushRemoval_sound hs' f status (hfits f hf)

/-- What the buffer promises its callers at every point of a run. -/
def InBounds (s : State) : Prop := s.buffer.count ≤ maxEntries ∧ s.freed.Nodup

instance : DecidablePred InBounds := fun _ => inferInstanceAs (Decidable (_ ∧ _))

/-- As long as no flush lets its batch go after another one did so since its
snapshot, the count stays in bounds, no removal takes more than there is, and no
entry is freed twice, whatever else the threads do. -/
theorem serial_removals_stay_in_bounds (actions : List Action)
    (h : Runs.EveryStep step SnapshotStillFirst initial actions) :
    Runs.Always step InBounds initial actions ∧
      Runs.EveryStep step RemovalFits initial actions := by
  have hsound : Runs.Always step Sound initial actions :=
    Runs.always_of_steps step_sound initial actions initial_sound h
  refine ⟨hsound.imp fun s hs => ⟨hs.bound, hs.owned.of_append_left⟩, ?_⟩
  exact Runs.EveryStep.imp_of_always (R := RemovalFits)
    (fun _ _ _ hs _ hq => removalFits_of_stillFirst hs hq) hsound h

/-- One entry of a default configuration, recorded in the first second. -/
def recordOne : Action := .record (some {}) (.finite 1) (some (ascii "\"value\":1")) 0 true

theorem serial_removals_stay_in_bounds_run :
    let run := [recordOne, .flushSnapshot true, .flushSnapshot true, .flushRemoval 0 503, recordOne,
      .flushRemoval 0 200, .flushSnapshot true, .flushRemoval 0 404]
    Runs.EveryStep step SnapshotStillFirst initial run ∧
      Runs.Always step InBounds initial run ∧ Runs.EveryStep step RemovalFits initial run :=
  ⟨by decide, serial_removals_stay_in_bounds _ (by decide)⟩

/-- Two flushes take the same entry and both are delivered: the second removal
subtracts 1 from 0 and frees the entry again. -/
def overlappingFlushes : List Action :=
  [recordOne, .flushSnapshot true, .flushSnapshot true, .flushRemoval 0 200, .flushRemoval 0 200]

theorem overlappingFlushes_wrap :
    ¬ Runs.EveryStep step RemovalFits initial overlappingFlushes ∧
      ¬ Runs.Always step (fun s => s.freed.Nodup) initial overlappingFlushes ∧
      (Runs.exec step initial overlappingFlushes).map (fun s => s.buffer.count) =
        some (2 ^ 64 - 1) := by
  decide

end ForgeOps.Metrics
