import ForgeOpsTracker.SpanNameAgain
import ForgeOpsTracker.Lib.Utf8

/-! What `forgeops_strict_privacy_strict_path` makes of a path that is no template: its first
segment with a name, and whether another one follows. -/

namespace ForgeOps.StrictPrivacy

/-- The path without its query and fragment; `NULL` counts as the empty path. -/
def pathOf (path : Option Bytes) : Bytes := (path.getD []).takeWhile isPathByte

/-- No segment is a route parameter. -/
def IsRaw (path : Option Bytes) : Prop :=
  ∀ segment ∈ segments (pathOf path), isRouteParameter segment = false

/-- The segments that are not empty. -/
def namedSegments (p : Bytes) : List Bytes := (segments p).filter (· ≠ [])

/-- What is left of a raw path with these segments. -/
def rawShape (slash : Bool) : List Bytes → Bytes
  | [] => ascii "/"
  | first :: more => rawPath slash first (more ≠ [])

/-! ## Segments that are not empty -/

theorem namedSegments_slash (p : Bytes) : namedSegments (47 :: p) = namedSegments p := by
  rw [namedSegments, segments_slash]
  rfl

theorem namedSegments_dropWhile (p : Bytes) :
    namedSegments (p.dropWhile (· = 47)) = namedSegments p := by
  induction p with
  | nil => rfl
  | cons c p ih =>
    by_cases hc : c = 47
    · subst hc
      rw [List.dropWhile_cons_of_pos (by simp), ih, namedSegments_slash]
    · rw [List.dropWhile_cons_of_neg (by simp [hc])]

theorem namedSegments_eq_nil {p : Bytes} : namedSegments p = [] ↔ p.dropWhile (· = 47) = [] := by
  rw [← namedSegments_dropWhile]
  cases hp : p.dropWhile (· = 47) with
  | nil => exact iff_of_true rfl rfl
  | cons c q =>
    have hc : c ≠ 47 := by simpa using not_of_dropWhile hp
    obtain ⟨first, more, -, hcons⟩ := segments_cons c q hc
    simp [namedSegments, hcons]

/-- A first segment and what stands behind it. -/
theorem namedSegments_first {first rest : Bytes} (h : IsFirst first)
    (hrest : rest = [] ∨ ∃ r, rest = 47 :: r) :
    namedSegments (first ++ rest) = first :: namedSegments rest := by
  rcases hrest with rfl | ⟨r, rfl⟩
  · have hfirst : namedSegments first = [first] := by
      rw [namedSegments, segments_single h.noSlash]
      simp [h.nonempty]
    rw [List.append_nil, hfirst]
    rfl
  · rw [namedSegments, segments_append_slash h.noSlash, namedSegments_slash, namedSegments]
    exact List.filter_cons_of_pos (by simpa using h.nonempty)

/-! ## The result -/

theorem strictPath_raw {path : Option Bytes} (h : IsRaw path) :
    strictPath path = rawShape ((pathOf path).head? = some 47) (namedSegments (pathOf path)) := by
  have hpath : strictPath path = strictPath (some (path.getD [])) := rfl
  rw [hpath]
  rcases strictPath_cases (path.getD []) with ⟨-, hroute, -⟩ | ⟨hnil, heq⟩ |
    ⟨first, rest, hfirst, -, hsplit, hrest, heq⟩
  · obtain ⟨segment, hmem, hparameter⟩ := List.any_eq_true.mp hroute
    rw [h segment hmem] at hparameter
    exact absurd hparameter Bool.false_ne_true
  · have hnone : namedSegments (pathOf path) = [] := namedSegments_eq_nil.mpr hnil
    rw [heq, hnone]
    rfl
  · have hnamed : namedSegments (pathOf path) = first :: namedSegments rest := by
      rw [← namedSegments_dropWhile, pathOf, hsplit, namedSegments_first hfirst hrest]
    rw [heq, hnamed, rawShape]
    congr 1
    rw [decide_eq_decide, ne_eq, ne_eq, namedSegments_eq_nil]

theorem strictPath_bytes (path : Option Bytes) : ∀ c ∈ strictPath path, c ≠ 63 ∧ c ≠ 35 := by
  have hall : (strictPath path).all isPathByte = true := by
    have hpath : strictPath path = strictPath (some (path.getD [])) := rfl
    rw [hpath]
    rcases strictPath_cases (path.getD []) with ⟨hpath, -, heq⟩ | ⟨-, heq⟩ |
      ⟨first, rest, hfirst, -, -, -, heq⟩
    · rwa [heq]
    · rw [heq]
      decide
    · rw [heq]
      exact rawPath_path hfirst _ _
  intro c hc
  simpa [isPathByte] using List.all_eq_true.mp hall c hc

/-- A segment that can be kept: without a digit, and of at most 40 characters. -/
structure IsShort (segment : Bytes) : Prop where
  noDigit : ∀ c ∈ segment, isDigit c = false
  short : characters segment ≤ 40
  utf8 : ∀ cs, segment = encode cs → cs.length ≤ 40

theorem isShort_of_kept {segment : Bytes} (h : isIdSegment segment = false) : IsShort segment := by
  rw [isIdSegment, Bool.or_eq_false_iff, List.any_eq_false, decide_eq_false_iff_not, not_lt] at h
  have hshort : characters segment ≤ 40 := h.2
  refine ⟨fun c hc => by simpa using h.1 c hc, hshort, fun cs hcs => ?_⟩
  rwa [hcs, characters_encode] at hshort

/-- A path is rewritten once and for all and without a query. What is left of a raw path is its
first segment that is not empty, or an id's placeholder, and whether another one follows: what that
is does not matter. -/
theorem strictPath_shape (path : Option Bytes) :
    strictPath (some (strictPath path)) = strictPath path ∧
    (∀ c ∈ strictPath path, c ≠ 63 ∧ c ≠ 35) ∧
    (IsRaw path →
      strictPath path = rawShape ((pathOf path).head? = some 47) (namedSegments (pathOf path)) ∧
      ∀ first more, namedSegments (pathOf path) = first :: more →
        (isIdSegment first = false → IsShort first) ∧
        ∀ path' more', IsRaw path' → (pathOf path').head? = (pathOf path).head? →
          namedSegments (pathOf path') = first :: more' → more ≠ [] → more' ≠ [] →
            strictPath path' = strictPath path) := by
  refine ⟨strictPath_twice (path.getD []), strictPath_bytes path,
    fun hraw => ⟨strictPath_raw hraw, ?_⟩⟩
  intro first more hnamed
  refine ⟨isShort_of_kept, fun path' more' hraw' hhead hnamed' hmore hmore' => ?_⟩
  rw [strictPath_raw hraw, strictPath_raw hraw', hhead, hnamed, hnamed', rawShape, rawShape,
    decide_eq_true hmore, decide_eq_true hmore']

theorem strictPath_shape_patients : strictPath (some (ascii "/patients/jane-doe?tab=2")) =
    strictPath (some (ascii "/patients/44/notes")) := by
  have hraw : ∀ p, (segments (pathOf (some p))).all
      (fun segment => !isRouteParameter segment) = true → IsRaw (some p) :=
        fun p hall segment hsegment => by simpa using List.all_eq_true.mp hall segment hsegment
  obtain ⟨-, -, hshape⟩ := strictPath_shape (some (ascii "/patients/44/notes"))
  obtain ⟨-, hfirst⟩ := hshape (hraw _ (by decide))
  obtain ⟨-, hsame⟩ := hfirst (ascii "patients") [ascii "44", ascii "notes"] (by decide)
  exact hsame (some (ascii "/patients/jane-doe?tab=2")) [ascii "jane-doe"] (hraw _ (by decide))
    (by decide) (by decide)
    (by decide) (by decide)

end ForgeOps.StrictPrivacy
