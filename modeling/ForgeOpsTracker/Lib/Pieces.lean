import ForgeOpsTracker.Lib.Ere
import Mathlib.Data.Nat.Find

/-! A text matched from its first byte to its last by expressions that follow one another, and how
it is divided among them. Where that can be done in several ways, the first expression takes the
longest piece that leaves a match for the others, then the second one does, and so on. -/

namespace ForgeOps.Ere

inductive Splits : List Ere → Bytes → List Bytes → Prop
  | nil : Splits [] [] []
  | cons {e : Ere} {es : List Ere} {piece rest : Bytes} {pieces : List Bytes} (h : e.Matches piece)
      (hrest : Splits es rest pieces) : Splits (e :: es) (piece ++ rest) (piece :: pieces)

inductive LongestSplit : List Ere → Bytes → List Bytes → Prop
  | nil : LongestSplit [] [] []
  | cons {e : Ere} {es : List Ere} {piece rest : Bytes} {pieces : List Bytes} (h : e.Matches piece)
      (hrest : LongestSplit es rest pieces)
      (hlongest : ∀ other behind others, piece ++ rest = other ++ behind → e.Matches other →
        Splits es behind others → other.length ≤
          piece.length) : LongestSplit (e :: es) (piece ++ rest) (piece :: pieces)

theorem LongestSplit.splits {es : List Ere} {s : Bytes} {pieces : List Bytes}
    (h : LongestSplit es s pieces) : Splits es s pieces := by
  induction h with
  | nil => exact .nil
  | cons h _ _ ih => exact .cons h ih

theorem LongestSplit.unique {es : List Ere} {s : Bytes} {pieces others : List Bytes}
    (h : LongestSplit es s pieces) (h' : LongestSplit es s others) : pieces = others := by
  induction h generalizing others with
  | nil =>
    cases h'
    rfl
  | @cons e es piece rest pieces hpiece hrest hlongest ih =>
    generalize hs : piece ++ rest = s at h'
    cases h' with
    | @cons _ _ other behind others hother hbehind hlongest' =>
      have hle := hlongest other behind others hs hother hbehind.splits
      have hge := hlongest' piece rest pieces hs.symm hpiece hrest.splits
      obtain ⟨rfl, rfl⟩ := List.append_inj hs (Nat.le_antisymm hge hle)
      rw [ih hbehind]

/-- What can be divided at all can be divided so that earlier pieces are longest. -/
theorem Splits.exists_longest {es : List Ere} {s : Bytes} {pieces : List Bytes}
    (h : Splits es s pieces) : ∃ longest, LongestSplit es s longest := by
  classical
  induction es generalizing s pieces with
  | nil =>
    cases h
    exact ⟨[], .nil⟩
  | cons e es ih =>
    let fits : Nat → Prop := fun n => e.Matches (s.take n) ∧ ∃ others, Splits es (s.drop n) others
    have hfits : ∀ {piece rest : Bytes} {others : List Bytes}, s = piece ++ rest → e.Matches piece →
        Splits es rest others → fits piece.length := by
      rintro piece rest others rfl hpiece hrest
      exact ⟨by rwa [List.take_left], others, by rwa [List.drop_left]⟩
    have hsome : ∃ n ≤ s.length, fits n := by
      cases h with
      | @cons _ _ piece rest pieces hpiece hrest =>
        exact ⟨piece.length, by simp, hfits rfl hpiece hrest⟩
    obtain ⟨n, hn, hfit⟩ := hsome
    obtain ⟨hmatch, others, hothers⟩ := Nat.findGreatest_spec hn hfit
    obtain ⟨longest, hlongest⟩ := ih hothers
    have hcons : LongestSplit (e :: es)
        (s.take (Nat.findGreatest fits s.length) ++ s.drop (Nat.findGreatest fits s.length))
        (s.take (Nat.findGreatest fits s.length) :: longest) := by
      refine .cons hmatch hlongest fun other behind others hsplit hother hbehind => ?_
      rw [List.take_append_drop] at hsplit
      have hlength : other.length ≤ s.length := by
        rw [hsplit, List.length_append]
        exact Nat.le_add_right _ _
      rw [List.length_take, Nat.min_eq_left (Nat.findGreatest_le _)]
      exact Nat.le_findGreatest hlength (hfits hsplit hother hbehind)
    rw [List.take_append_drop] at hcons
    exact ⟨_, hcons⟩

/-! ## Pieces that can only be what they are -/

/-- No match of these expressions begins with one of these bytes. -/
def Stops (set : UInt8 → Bool) (es : List Ere) : Prop :=
  ∀ s pieces, Splits es s pieces → ∀ c ∈ s.head?, set c = false

theorem stops_nil (set : UInt8 → Bool) : Stops set [] := by
  intro s pieces hsplit c hc
  cases hsplit
  exact absurd hc (Option.not_mem_none c)

theorem stops_many {set next : UInt8 → Bool} (h : ∀ c, next c = true → set c = false) {least : Nat}
    (hleast : 0 < least) (most : Option Nat) (es : List Ere) :
    Stops set (.many next least most :: es) := by
  intro s pieces hsplit c hc
  cases hsplit with
  | @cons _ _ piece rest pieces hpiece hrest =>
    obtain ⟨hnext, hlength, -⟩ := hpiece
    cases piece with
    | nil => exact absurd hlength (Nat.not_le.mpr hleast)
    | cons d piece =>
      obtain rfl : d = c := Option.some.inj hc
      exact h d (hnext d List.mem_cons_self)

theorem stops_optional {set next : UInt8 → Bool}
    (h : ∀ c, next c = true → set c = false) (least : Nat) (most : Option Nat) {es : List Ere}
    (hes : Stops set es) : Stops set (.many next least most :: es) := by
  intro s pieces hsplit c hc
  cases hsplit with
  | @cons _ _ piece rest pieces hpiece hrest =>
    cases piece with
    | nil => exact hes _ _ hrest c hc
    | cons d piece =>
      obtain rfl : d = c := Option.some.inj hc
      exact h d (hpiece.1 d List.mem_cons_self)

theorem run_before {set : UInt8 → Bool} {es : List Ere} (hstops : Stops set es) {piece rest : Bytes}
    {others : List Bytes} (hpiece : ∀ c ∈ piece, set c = true) (hrest : Splits es rest others) :
    (piece ++ rest).takeWhile set = piece ∧ (piece ++ rest).dropWhile set = rest := by
  rw [List.takeWhile_append_of_pos hpiece, List.dropWhile_append_of_pos hpiece]
  cases rest with
  | nil => simp
  | cons c rest =>
    have hc := hstops _ _ hrest c rfl
    rw [List.takeWhile_cons_of_neg (by rw [hc]; exact Bool.false_ne_true),
      List.dropWhile_cons_of_neg (by rw [hc]; exact Bool.false_ne_true), List.append_nil]
    exact ⟨rfl, rfl⟩

/-- A run before a byte that cannot belong to it is the whole run. -/
theorem longestSplit_many_iff {set : UInt8 → Bool} {least : Nat} {es : List Ere}
    (hstops : Stops set es) {s : Bytes} {pieces : List Bytes} :
    LongestSplit (.many set least none :: es) s pieces ↔
      least ≤ (s.takeWhile set).length ∧ ∃ others, pieces = s.takeWhile set :: others ∧
        LongestSplit es (s.dropWhile set) others := by
  constructor
  · intro h
    cases h with
    | @cons _ _ piece rest others hpiece hrest hlongest =>
      obtain ⟨htake, hdrop⟩ := run_before hstops hpiece.1 hrest.splits
      rw [htake, hdrop]
      exact ⟨hpiece.2.1, others, rfl, hrest⟩
  · rintro ⟨hleast, others, rfl, hrest⟩
    have hall : ∀ c ∈ s.takeWhile set, set c = true := fun c hc => List.mem_takeWhile_imp hc
    have hcons : LongestSplit (.many set least none :: es) (s.takeWhile set ++ s.dropWhile set)
        (s.takeWhile set :: others) := by
      refine .cons ⟨hall, hleast, fun m hm => absurd hm (Option.not_mem_none m)⟩ hrest
        fun other behind others' hsplit hother hbehind => ?_
      rw [List.takeWhile_append_dropWhile] at hsplit
      rw [hsplit, (run_before hstops hother.1 hbehind).1]
    rwa [List.takeWhile_append_dropWhile] at hcons

theorem longestSplit_some_iff {set : UInt8 → Bool} {es : List Ere}
    (hstops : Stops set es) {s : Bytes} {pieces : List Bytes} :
    LongestSplit (.many set 1 none :: es) s pieces ↔
      s.takeWhile set ≠ [] ∧ ∃ others, pieces = s.takeWhile set :: others ∧
      LongestSplit es (s.dropWhile set) others := by
  rw [longestSplit_many_iff hstops, Nat.one_le_iff_ne_zero, Ne, List.length_eq_zero_iff]

theorem longestSplit_byte_iff {c : UInt8} {es : List Ere} {s : Bytes} {pieces : List Bytes} :
    LongestSplit (set (· == c) :: es) s pieces ↔
      ∃ rest others, s = c :: rest ∧ pieces = [c] :: others ∧ LongestSplit es rest others := by
  have hone : ∀ {piece : Bytes}, (set (· == c)).Matches piece ↔ piece = [c] := by
    intro piece
    constructor
    · rintro ⟨hall, hleast, hmost⟩
      obtain ⟨d, rfl⟩ := List.length_eq_one_iff.mp (Nat.le_antisymm (hmost 1 rfl) hleast)
      rw [beq_iff_eq.mp (hall d List.mem_cons_self)]
    · rintro rfl
      exact ⟨by simp, Nat.le_refl 1, fun m hm => Option.some.inj hm ▸ Nat.le_refl 1⟩
  constructor
  · intro h
    cases h with
    | @cons _ _ piece rest others hpiece hrest hlongest =>
      obtain rfl := hone.mp hpiece
      exact ⟨rest, others, rfl, rfl, hrest⟩
  · rintro ⟨rest, others, rfl, rfl, hrest⟩
    exact .cons (hone.mpr rfl) hrest fun other behind others' _ hother _ => by rw [hone.mp hother]

end ForgeOps.Ere
