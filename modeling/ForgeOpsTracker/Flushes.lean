import ForgeOpsTracker.Client

/-! How flushes end. Metrics and performance buckets are sent the same way: a batch is
kept while its delivery fails, and let go once it is delivered, rejected, or has failed
too many times in a row. -/

namespace ForgeOps.Flushes
open Client

variable {β : Type*}

/-- A flush that came back: what it had in its body, the status it got, and whether it let that
go. -/
structure Finished (β : Type*) where
  batch : β
  status : Int
  letGo : Bool
  deriving DecidableEq, Repr

def Finished.failed (g : Finished β) : Bool := deliveryOutcomeForStatus g.status = .failed

/-- The batches that were let go, in order. -/
def settled (finished : List (Finished β)) : List β :=
  (finished.filter Finished.letGo).map Finished.batch

/-- How many of the last flushes, in a row, kept their batch. -/
def keptInARow (finished : List (Finished β)) : Nat :=
  (finished.reverse.takeWhile fun g => !g.letGo).length

/-- A flush keeps its batch only when it failed; a failed one lets its batch go only when it is the
`most`-th in a row since a batch was let go; and those in a row are what is counted. -/
structure LastOnly (most : Nat) (finished : List (Finished β))
    (consecutiveFailures : Nat) : Prop where
  kept : ∀ g ∈ finished, !g.letGo → g.failed
  last : ∀ before g after, finished = before ++ g :: after → g.letGo → g.failed →
    keptInARow before + 1 = most
  counted : consecutiveFailures = keptInARow finished
  below : consecutiveFailures < most

/-- No flush is left under way when the only one comes back. -/
theorem eraseIdx_eq_nil {φ : Type*} {flushes : List φ} {i : Nat} {f : φ} (hf : flushes[i]? = some f)
    (hsingle : flushes.length ≤ 1) : flushes.eraseIdx i = [] := by
  have hi := (List.getElem?_eq_some_iff.mp hf).1
  apply List.length_eq_zero_iff.mp
  rw [List.length_eraseIdx_of_lt hi]
  omega

theorem settled_concat (finished : List (Finished β)) (g : Finished β) :
    settled (finished ++ [g]) = settled finished ++ if g.letGo then [g.batch] else [] := by
  cases h : g.letGo <;> simp [settled, h]

theorem keptInARow_concat (finished : List (Finished β)) (g : Finished β) :
    keptInARow (finished ++ [g]) = if g.letGo then 0 else keptInARow finished + 1 := by
  cases h : g.letGo <;> simp [keptInARow, h]

variable {most : Nat}

theorem LastOnly.nil (hmost : 0 < most) : LastOnly most ([] : List (Finished β)) 0 where
  kept := fun _ hg => absurd hg List.not_mem_nil
  last := fun _ _ _ h => absurd h (by simp)
  counted := rfl
  below := hmost

/-- One more flush that decides by its status and the count. -/
theorem LastOnly.concat {finished : List (Finished β)} {failures : Nat}
    (h : LastOnly most finished failures) {g : Finished β}
    (hgo : g.letGo = (!g.failed || decide (most ≤ failures + 1))) :
    LastOnly most (finished ++ [g]) (if g.letGo then 0 else failures + 1) := by
  have hfew := h.below
  refine ⟨fun g' hg' hno => ?_, fun before g' after heq hlet hfailed => ?_, ?_, ?_⟩
  · rcases List.mem_append.mp hg' with hg' | hg'
    · exact h.kept g' hg' hno
    · obtain rfl := List.mem_singleton.mp hg'
      simp only [Bool.not_eq_true'] at hno
      simp only [hno, Bool.false_eq, Bool.or_eq_false_iff, Bool.not_eq_false'] at hgo
      exact hgo.1
  · rcases List.eq_nil_or_concat after with rfl | ⟨after, last, rfl⟩
    · obtain ⟨rfl, hone⟩ := List.append_inj' heq rfl
      obtain rfl := List.singleton_inj.mp hone
      simp only [hlet, hfailed, Bool.not_true, Bool.false_or, Bool.true_eq,
        decide_eq_true_eq] at hgo
      have := h.counted
      omega
    · rw [List.concat_eq_append, ← List.cons_append, ← List.append_assoc] at heq
      exact h.last before g' after (List.append_inj' heq rfl).1 hlet hfailed
  · rw [keptInARow_concat, h.counted]
  · split
    · exact Nat.zero_lt_of_lt hfew
    · rename_i hno
      simp only [Bool.not_eq_true] at hno
      simp only [hno, Bool.false_eq, Bool.or_eq_false_iff, decide_eq_false_iff_not] at hgo
      exact Nat.lt_of_not_le hgo.2

end ForgeOps.Flushes
