import ForgeOpsTracker.PiiScrubber

/-! What an IBAN candidate is: `iban_candidate_end` ends it at a word boundary, behind
capital letters and digits that stand together or in groups of four. -/

namespace ForgeOps.PiiScrubber

/-- Only capital letters and digits up to `e`. -/
def CompactTo (s : Bytes) (e : Nat) : Prop := ∀ j < e, ∃ x ∈ s[j]?, isIbanChar x = true

/-- Up to `e`, a space at every fifth byte and capital letters and digits between. -/
def SpacedTo (s : Bytes) (e : Nat) : Prop :=
  ∀ j < e, ∃ x ∈ s[j]?, if j % 5 = 4 then x = space else isIbanChar x = true

/-! ## Groups -/

theorem isIbanGroup_split {q : Bytes} (h : isIbanGroup q = true) :
    ∃ t rest, q = space :: (t ++ rest) ∧ t.length = 4 ∧ ∀ x ∈ t, isIbanChar x = true := by
  rcases q with _ | ⟨sp, _ | ⟨a, _ | ⟨b, _ | ⟨c, _ | ⟨d, q⟩⟩⟩⟩⟩
  · exact absurd h (by decide)
  · exact absurd h (by simp [isIbanGroup])
  · exact absurd h (by simp [isIbanGroup])
  · exact absurd h (by simp [isIbanGroup])
  · exact absurd h (by simp [isIbanGroup])
  · simp only [isIbanGroup, Bool.and_eq_true, beq_iff_eq] at h
    obtain ⟨⟨⟨⟨rfl, ha⟩, hb⟩, hc⟩, hd⟩ := h
    exact ⟨[a, b, c, d], q, rfl, rfl, by simp [ha, hb, hc, hd]⟩

theorem isIbanGroup_spec {s : Bytes} (h : isIbanGroup s = true) {j : Nat} (hj : j < 5) :
    ∃ x ∈ s[j]?, if j = 0 then x = space else isIbanChar x = true := by
  obtain ⟨t, rest, rfl, hlength, hchars⟩ := isIbanGroup_split h
  cases j with
  | zero => exact ⟨space, rfl, rfl⟩
  | succ j =>
    have hlt : j < t.length := by omega
    refine ⟨t[j], ?_, hchars t[j] (List.getElem_mem hlt)⟩
    rw [Option.mem_def, List.getElem?_cons_succ, List.getElem?_append_left hlt,
      List.getElem?_eq_getElem hlt]

theorem ibanGroups_spec {most : Nat} {s : Bytes} {j : Nat} (hj : j < 5 * ibanGroups most s) :
    ∃ x ∈ s[j]?, if j % 5 = 0 then x = space else isIbanChar x = true := by
  induction most generalizing s j with
  | zero => exact absurd hj (by simp [ibanGroups])
  | succ most ih =>
    rw [ibanGroups] at hj
    split at hj
    · rename_i hgroup
      by_cases hfirst : j < 5
      · obtain ⟨x, hx, hkind⟩ := isIbanGroup_spec hgroup hfirst
        refine ⟨x, hx, ?_⟩
        rwa [Nat.mod_eq_of_lt hfirst]
      · obtain ⟨x, hx, hkind⟩ := ih (s := s.drop 5) (j := j - 5) (by omega)
        refine ⟨x, ?_, ?_⟩
        · rwa [List.getElem?_drop, show 5 + (j - 5) = j by omega] at hx
        · rwa [show (j - 5) % 5 = j % 5 by omega] at hkind
    · exact absurd hj (by simp)

/-! ## Ends -/

theorem lastBoundary_spec {s : Bytes} {base least k : Nat} (h : lastBoundary s base least k ≠ 0) :
    ∃ j, least ≤ j ∧ 0 < j ∧ j ≤ k ∧ lastBoundary s base least k = base + j ∧
      isWordBoundary s (base + j) = true := by
  induction k with
  | zero => exact absurd rfl h
  | succ k ih =>
    rw [lastBoundary] at h ⊢
    split at h
    · exact absurd rfl h
    rename_i hleast
    rw [if_neg hleast]
    by_cases hboundary : isWordBoundary s (base + (k + 1)) = true
    · rw [if_pos hboundary]
      exact ⟨k + 1, by omega, Nat.succ_pos k, Nat.le_refl _, rfl, hboundary⟩
    · rw [if_neg hboundary] at h ⊢
      obtain ⟨j, hj, hpos, hle, heq, hb⟩ := ih h
      exact ⟨j, hj, hpos, Nat.le_succ_of_le hle, heq, hb⟩

/-- The end behind a space and one to four more characters, or 0. -/
def spacedTail (s : Bytes) (after : Nat) : Nat :=
  if s[after]? = some space then
    lastBoundary s (after + 1) 1 (min 4 ((s.drop (after + 1)).takeWhile isIbanChar).length)
  else 0

theorem spacedEnd_succ {s : Bytes} {g : Nat} (hg : 2 ≤ g + 1) :
    spacedEnd s (g + 1) =
      if spacedTail s (4 + 5 * (g + 1)) ≠ 0 then spacedTail s (4 + 5 * (g + 1))
      else if isWordBoundary s (4 + 5 * (g + 1)) then 4 + 5 * (g + 1)
      else spacedEnd s g := by
  rw [spacedEnd, if_neg (by omega)]
  rfl

theorem spacedTail_spec {s : Bytes} {after : Nat} (h : spacedTail s after ≠ 0) :
    s[after]? = some space ∧ isWordBoundary s (spacedTail s after) = true ∧
      ∃ t, 1 ≤ t ∧ t ≤ 4 ∧ t ≤ ((s.drop (after + 1)).takeWhile isIbanChar).length ∧
        spacedTail s after = after + 1 + t := by
  unfold spacedTail at h ⊢
  split at h
  · rename_i hspace
    rw [if_pos hspace]
    obtain ⟨t, hleast, -, hle, heq, hb⟩ := lastBoundary_spec h
    rw [heq]
    exact ⟨hspace, hb, t, hleast, by omega, by omega, rfl⟩
  · exact absurd rfl h

theorem spacedEnd_spec {s : Bytes} {groups : Nat} (h : spacedEnd s groups ≠ 0) :
    isWordBoundary s (spacedEnd s groups) = true ∧ ∃ g ≤ groups, 2 ≤ g ∧
      (spacedEnd s groups = 4 + 5 * g ∨ s[4 + 5 * g]? = some space ∧
        ∃ t ≤ 4, t ≤ ((s.drop (4 + 5 * g + 1)).takeWhile isIbanChar).length ∧
          spacedEnd s groups = 4 + 5 * g + 1 + t) := by
  induction groups with
  | zero => exact absurd rfl h
  | succ groups ih =>
    by_cases htwo : groups + 1 < 2
    · rw [spacedEnd, if_pos htwo] at h
      exact absurd rfl h
    rw [spacedEnd_succ (by omega)] at h ⊢
    by_cases htail : spacedTail s (4 + 5 * (groups + 1)) ≠ 0
    · rw [if_pos htail]
      obtain ⟨hspace, hb, t, -, hfour, hrun, heq⟩ := spacedTail_spec htail
      exact ⟨hb, groups + 1, Nat.le_refl _, by omega, .inr ⟨hspace, t, hfour, hrun, heq⟩⟩
    rw [if_neg htail] at h ⊢
    by_cases hb : isWordBoundary s (4 + 5 * (groups + 1)) = true
    · rw [if_pos hb]
      exact ⟨hb, groups + 1, Nat.le_refl _, by omega, .inl rfl⟩
    · rw [if_neg hb] at h ⊢
      obtain ⟨hboundary, g, hg, htwo, hend⟩ := ih h
      exact ⟨hboundary, g, Nat.le_succ_of_le hg, htwo, hend⟩

/-- A candidate that ends at `e`. -/
structure CandidateEnd (prev : Option UInt8) (s : Bytes) (e : Nat) : Prop where
  starts : (prev.map isWordChar).getD false = false
  long : 4 < e
  boundary : isWordBoundary s e = true
  shape : CompactTo s e ∨ SpacedTo s e

theorem ibanCandidateEnd_spec {prev : Option UInt8} {s : Bytes} (h : ibanCandidateEnd prev s ≠ 0) :
    CandidateEnd prev s (ibanCandidateEnd prev s) := by
  unfold ibanCandidateEnd at h ⊢
  split at h
  · exact absurd rfl h
  rename_i hprev
  rw [if_neg hprev]
  have hstarts : (prev.map isWordChar).getD false = false := by simpa using hprev
  split at h
  swap
  · exact absurd rfl h
  rename_i a b c d rest
  split at h
  swap
  · exact absurd rfl h
  rename_i hhead
  rw [if_pos hhead]
  simp only [Bool.and_eq_true] at hhead
  obtain ⟨⟨⟨ha, hb⟩, hc⟩, hd⟩ := hhead
  have hfour : ∀ j < 4, ∃ x ∈ (a :: b :: c :: d :: rest)[j]?, isIbanChar x = true := by
    intro j hj
    interval_cases j
    · exact ⟨a, rfl, by simp [isIbanChar, ha]⟩
    · exact ⟨b, rfl, by simp [isIbanChar, hb]⟩
    · exact ⟨c, rfl, by simp [isIbanChar, hc]⟩
    · exact ⟨d, rfl, by simp [isIbanChar, hd]⟩
  dsimp only at h ⊢
  split at h
  · rename_i hcompact
    rw [if_pos hcompact]
    obtain ⟨k, hleast, -, hk, heq, hboundary⟩ := lastBoundary_spec hcompact
    rw [heq]
    refine ⟨hstarts, by omega, hboundary, .inl fun j hj => ?_⟩
    by_cases hlow : j < 4
    · exact hfour j hlow
    · obtain ⟨x, hx, hchar⟩ := exists_of_lt_takeWhile (p := isIbanChar) (s := rest)
        (i := j - 4) (by omega)
      obtain ⟨i, rfl⟩ := Nat.exists_eq_add_of_le (Nat.le_of_not_lt hlow)
      rw [Nat.add_sub_cancel_left] at hx
      exact ⟨x, by rwa [Nat.add_comm], hchar⟩
  · rename_i hcompact
    rw [if_neg hcompact]
    obtain ⟨hboundary, g, hg, htwo, hend⟩ := spacedEnd_spec h
    have hgroups : SpacedTo (a :: b :: c :: d :: rest) (4 + 5 * g) := by
      intro j hj
      by_cases hlow : j < 4
      · obtain ⟨x, hx, hchar⟩ := hfour j hlow
        exact ⟨x, hx, by rwa [if_neg (by omega)]⟩
      · obtain ⟨i, rfl⟩ := Nat.exists_eq_add_of_le (Nat.le_of_not_lt hlow)
        have hi : i < 5 * ibanGroups 7 rest := by omega
        obtain ⟨x, hx, hkind⟩ := ibanGroups_spec hi
        refine ⟨x, by rwa [Nat.add_comm], ?_⟩
        split at hkind
        · rwa [if_pos (by omega)]
        · rwa [if_neg (by omega)]
    rcases hend with heq | ⟨hspace, t, ht, hrun, heq⟩
    · rw [heq] at hboundary ⊢
      exact ⟨hstarts, by omega, hboundary, .inr hgroups⟩
    · rw [heq] at hboundary ⊢
      refine ⟨hstarts, by omega, hboundary, .inr fun j hj => ?_⟩
      rcases Nat.lt_trichotomy j (4 + 5 * g) with hlt | rfl | hgt
      · exact hgroups j hlt
      · exact ⟨space, hspace, by rw [if_pos (by omega)]⟩
      · obtain ⟨x, hx, hchar⟩ := exists_of_lt_takeWhile (Nat.lt_of_lt_of_le
          (show j - (4 + 5 * g + 1) < t by omega) hrun)
        rw [List.getElem?_drop, show 4 + 5 * g + 1 + (j - (4 + 5 * g + 1)) = j by omega] at hx
        exact ⟨x, hx, by rwa [if_neg (by omega)]⟩

theorem CandidateEnd.length {prev : Option UInt8} {s : Bytes} {e : Nat}
    (h : CandidateEnd prev s e) : e ≤ s.length := by
  have hlong := h.long
  have hlast : ∃ x, s[e - 1]? = some x := by
    rcases h.shape with hshape | hshape
    · obtain ⟨x, hx, -⟩ := hshape (e - 1) (by omega)
      exact ⟨x, hx⟩
    · obtain ⟨x, hx, -⟩ := hshape (e - 1) (by omega)
      exact ⟨x, hx⟩
  obtain ⟨x, hx⟩ := hlast
  have := (List.getElem?_eq_some_iff.mp hx).1
  omega

theorem ibanCandidateEnd_le (prev : Option UInt8) (s : Bytes) :
    ibanCandidateEnd prev s ≤ s.length := by
  by_cases h : ibanCandidateEnd prev s = 0
  · rw [h]
    exact Nat.zero_le _
  · exact (ibanCandidateEnd_spec h).length

end ForgeOps.PiiScrubber
