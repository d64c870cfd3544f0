import ForgeOpsTracker.Metrics
import ForgeOpsTracker.Flushes

/-! What became of every metric entry: a history kept beside the buffer of which
entries were accepted and how every flush ended, and what it says as long as the
flushes of the kind do not overlap. -/

namespace ForgeOps.Metrics
open Client Flushes

/-- No step of the code reads the history. -/
structure Ledger where
  state : State
  accepted : List Entry
  finished : List (Finished (List Entry))
  deriving DecidableEq, Repr

namespace Ledger

def initial : Ledger := ⟨Metrics.initial, [], []⟩

/-- A step of the code, and the history it makes. -/
def step (l : Ledger) : Action → Option Ledger
  | .record config value fieldsJson now allocated =>
    let result := record l.state config value fieldsJson now allocated
    let entry := fieldsJson.map fun fields => (⟨l.state.nextAddr, entryText fields now⟩ : Entry)
    some { l with
      state := result.1
      accepted := if result.2 then l.accepted ++ entry.toList else l.accepted }
  | .flushSnapshot allocated => some { l with state := flushSnapshot l.state allocated }
  | .flushRemoval i status =>
    (l.state.flushes[i]?).map fun f =>
      { l with
        state := flushRemoval { l.state with flushes := l.state.flushes.eraseIdx i } f status
        finished := l.finished ++ [⟨f.batch, status, letsGo l.state.buffer status⟩] }

/-- The history changes nothing. -/
theorem step_state (l : Ledger) (a : Action) :
    (l.step a).map Ledger.state = Metrics.step l.state a := by
  cases a with
  | record => rfl
  | flushSnapshot => rfl
  | flushRemoval i status => simp only [step, Metrics.step, Option.map_map, Function.comp_def]

/-- A flush of the kind starts only when no other one is under way. -/
def Serial (l : Ledger) : Action → Prop
  | .flushSnapshot _ => l.state.flushes = []
  | _ => True

instance (l : Ledger) : ∀ a, Decidable (l.Serial a)
  | .flushSnapshot _ => inferInstanceAs (Decidable (_ = []))
  | .record .. => inferInstanceAs (Decidable True)
  | .flushRemoval .. => inferInstanceAs (Decidable True)

/-! ## What the history says -/

/-- Every accepted entry was in a batch let go or is still buffered, once and in order. -/
def Accounted (l : Ledger) : Prop :=
  l.accepted = (settled l.finished).flatten ++ l.state.buffer.live

/-- A failed batch is let go by the fifth failed flush in a row only, and the count starts again
behind every batch let go. -/
def FifthOnly (l : Ledger) : Prop :=
  LastOnly maxConsecutiveFailures l.finished l.state.buffer.consecutiveFailures

/-! ## The invariant -/

structure Sound (l : Ledger) : Prop where
  slots : l.state.buffer.count ≤ l.state.buffer.entries.length
  taken : ∀ f ∈ l.state.flushes, f.count = f.batch.length ∧ f.batch <+: l.state.buffer.live
  single : l.state.flushes.length ≤ 1
  accounted : l.Accounted
  fifth : l.FifthOnly

theorem initial_sound : Sound initial := by
  refine ⟨Nat.le_refl _, ?_, Nat.zero_le _, rfl, LastOnly.nil (by decide)⟩
  intro f hf
  exact absurd hf List.not_mem_nil

/-- What a record's result says about it. -/
theorem record_result (s : State) (config : Option Configuration) (value : Double)
    (fieldsJson : Option Bytes) (now : Nat) (allocated : Bool)
    (hslots : s.buffer.count ≤ s.buffer.entries.length) :
    let r := record s config value fieldsJson now allocated
    r.1.flushes = s.flushes ∧ r.1.buffer.count ≤ r.1.buffer.entries.length ∧
      r.1.buffer.consecutiveFailures = s.buffer.consecutiveFailures ∧
      ((r.2 = false ∧ r.1.buffer.live = s.buffer.live) ∨
        ∃ fields, fieldsJson = some fields ∧ r.2 = true ∧
          r.1.buffer.live = s.buffer.live ++ [⟨s.nextAddr, entryText fields now⟩]) := by
  unfold record
  cases config with
  | none => exact ⟨rfl, hslots, rfl, .inl ⟨rfl, rfl⟩⟩
  | some config =>
    cases fieldsJson with
    | none => exact ⟨rfl, hslots, rfl, .inl ⟨rfl, rfl⟩⟩
    | some fields =>
      dsimp only
      split
      · exact ⟨rfl, hslots, rfl, .inl ⟨rfl, rfl⟩⟩
      split
      · exact ⟨rfl, hslots, rfl, .inl ⟨rfl, rfl⟩⟩
      refine ⟨rfl, ?_, rfl, .inr ⟨fields, rfl, rfl, ?_⟩⟩
      · simp only [List.length_append, List.length_take, List.length_cons]
        omega
      · have hlen : (s.buffer.entries.take s.buffer.count).length = s.buffer.count := by
          simp [hslots]
        simp [Buffer.live, List.take_append, List.take_take, hlen]

section
variable {l : Ledger} (h : Sound l)
include h

theorem record_sound (config : Option Configuration) (value : Double) (fieldsJson : Option Bytes)
    (now : Nat) (allocated : Bool) {l' : Ledger}
    (hstep : l.step (.record config value fieldsJson now allocated) = some l') : Sound l' := by
  obtain rfl := Option.some.inj hstep
  obtain ⟨hflushes, hslots, hfailures, hresult⟩ :=
    record_result l.state config value fieldsJson now allocated h.slots
  refine ⟨hslots, ?_, ?_, ?_, ?_⟩
  · intro f hf
    obtain ⟨hcount, hbatch⟩ := h.taken f (hflushes ▸ hf)
    rcases hresult with ⟨-, hlive⟩ | ⟨fields, -, -, hlive⟩
    · exact ⟨hcount, hlive ▸ hbatch⟩
    · exact ⟨hcount, hlive ▸ hbatch.trans (List.prefix_append _ _)⟩
  · show (record _ _ _ _ _ _).1.flushes.length ≤ 1
    rw [hflushes]
    exact h.single
  · have hold := h.accounted
    rcases hresult with ⟨hno, hlive⟩ | ⟨fields, rfl, hyes, hlive⟩
    · show (if _ = true then _ else l.accepted) = (settled l.finished).flatten ++ _
      rw [hlive, hno, if_neg Bool.false_ne_true]
      exact hold
    · show (if _ = true then l.accepted ++ _ else _) = (settled l.finished).flatten ++ _
      rw [hlive, hyes, if_pos rfl, hold, List.append_assoc]
      rfl
  · show LastOnly _ _ (record _ _ _ _ _ _).1.buffer.consecutiveFailures
    rw [hfailures]
    exact h.fifth

theorem flushSnapshot_sound (allocated : Bool) (hserial : l.Serial (.flushSnapshot allocated)) :
    Sound { l with state := flushSnapshot l.state allocated } := by
  unfold flushSnapshot
  split
  · exact h
  have hnone : l.state.flushes = [] := hserial
  refine ⟨h.slots, ?_, ?_, h.accounted, h.fifth⟩
  · intro f hf
    simp only [hnone, List.nil_append, List.mem_singleton] at hf
    obtain rfl := hf
    exact ⟨(live_length h.slots).symm, List.prefix_refl _⟩
  · simp only [hnone, List.nil_append, List.length_singleton]
    exact Nat.le_refl _

theorem flushRemoval_sound {i : Nat} {f : Flush} (hf : l.state.flushes[i]? = some f)
    (status : Int) : Sound { l with
      state := flushRemoval { l.state with flushes := l.state.flushes.eraseIdx i } f status
      finished := l.finished ++ [⟨f.batch, status, letsGo l.state.buffer status⟩] } := by
  obtain ⟨hcount, hbatch⟩ := h.taken f (List.mem_of_getElem? hf)
  have hnone : l.state.flushes.eraseIdx i = [] := Flushes.eraseIdx_eq_nil hf h.single
  have hfifth := h.fifth.concat (g := ⟨f.batch, status, letsGo l.state.buffer status⟩)
    (by simp [letsGo, Finished.failed])
  cases hgo : letsGo l.state.buffer status with
  | true =>
    have hfits : f.count ≤ l.state.buffer.count := by
      rw [hcount, ← live_length h.slots]
      exact hbatch.length_le
    obtain ⟨-, hlive, hslots, -, hflushes, -⟩ :=
      removeBatch_live (s := { l.state with flushes := l.state.flushes.eraseIdx i }) h.slots hfits
    have hremoval : flushRemoval { l.state with flushes := l.state.flushes.eraseIdx i } f status =
        removeBatch { l.state with flushes := l.state.flushes.eraseIdx i } f.count := if_pos hgo
    rw [hgo] at hfifth
    rw [hremoval]
    refine ⟨hslots, ?_, ?_, ?_, hfifth⟩
    · intro g hg
      rw [hflushes] at hg
      simp only [hnone] at hg
      exact absurd hg List.not_mem_nil
    · show (removeBatch _ _).flushes.length ≤ 1
      rw [hflushes]
      show (l.state.flushes.eraseIdx i).length ≤ 1
      rw [hnone]
      exact Nat.zero_le _
    · have hold := h.accounted
      have hfront : f.batch ++ l.state.buffer.live.drop f.count = l.state.buffer.live := by
        rw [hcount]
        exact (List.prefix_append_drop hbatch).symm
      show l.accepted = (settled _).flatten ++ (removeBatch _ _).buffer.live
      rw [hlive, settled_concat, if_pos rfl, List.flatten_append, List.append_assoc, hold,
        List.flatten_singleton]
      exact congrArg ((settled l.finished).flatten ++ ·) hfront.symm
  | false =>
    have hremoval : flushRemoval { l.state with flushes := l.state.flushes.eraseIdx i } f status =
        { l.state with
          flushes := l.state.flushes.eraseIdx i
          buffer := { l.state.buffer with
            consecutiveFailures := l.state.buffer.consecutiveFailures + 1 } } :=
      if_neg (by rw [hgo]; exact Bool.false_ne_true)
    rw [hgo] at hfifth
    rw [hremoval]
    refine ⟨h.slots, ?_, ?_, ?_, hfifth⟩
    · intro g hg
      simp only [hnone] at hg
      exact absurd hg List.not_mem_nil
    · simp only [hnone]
      exact Nat.zero_le _
    · show l.accepted = (settled _).flatten ++ l.state.buffer.live
      rw [settled_concat, if_neg Bool.false_ne_true, List.append_nil]
      exact h.accounted

end

theorem step_sound (l : Ledger) (a : Action) (l' : Ledger) (h : Sound l) (hserial : l.Serial a)
    (hstep : l.step a = some l') : Sound l' := by
  cases a with
  | record config value fieldsJson now allocated => exact record_sound h _ _ _ _ _ hstep
  | flushSnapshot allocated =>
    obtain rfl := Option.some.inj hstep
    exact flushSnapshot_sound h allocated hserial
  | flushRemoval i status =>
    obtain ⟨f, hf, rfl⟩ := Option.map_eq_some_iff.mp hstep
    exact flushRemoval_sound h hf status

/-- As long as flushes do not overlap, at every point of a run every accepted entry was in a batch
let go or is still buffered, once and in order, and a failed batch is let go by the fifth
failure. -/
theorem accounted_of_serial (actions : List Action)
    (h : Runs.EveryStep step Serial initial actions) :
    Runs.Always step (fun l => l.Accounted ∧ l.FifthOnly) initial actions :=
  (Runs.always_of_steps step_sound initial actions initial_sound h).imp fun _ hs =>
    ⟨hs.accounted, hs.fifth⟩

/-- Four failures, an entry that arrives during one of them, and the fifth. -/
theorem accounted_of_serial_run :
    let run := [recordOne, .flushSnapshot true, recordOne, .flushRemoval 0 503, .flushSnapshot true,
      .flushRemoval 0 0, .flushSnapshot true, .flushRemoval 0 429, .flushSnapshot true,
      .flushRemoval 0 500, .flushSnapshot true, recordOne, .flushRemoval 0 503, .flushSnapshot true,
      .flushRemoval 0 200]
    Runs.EveryStep step Serial initial run ∧
      Runs.Always step (fun l => l.Accounted ∧ l.FifthOnly) initial run :=
  ⟨by decide, accounted_of_serial _ (by decide)⟩

end Ledger

end ForgeOps.Metrics
