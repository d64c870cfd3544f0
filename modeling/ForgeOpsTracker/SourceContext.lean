import ForgeOpsTracker.Lib.Lines
import ForgeOpsTracker.Lib.Utf8
import ForgeOpsTracker.Configuration
import ForgeOpsTracker.JsonText

/-! The lines around a frame's line (`forgeops_source_context_json`): how they are read through a
buffer that grows, against the lines that a file has, and where a long line is cut. The cut counts
bytes, so it may fall inside a character; the same step of `breadcrumbs.c` goes back to where a
character begins. -/

namespace ForgeOps.SourceContext
open JsonText

def contextLines : Nat := 5
def maxContextLineLength : Nat := 500

/-! ## Reading -/

/-- `buf[length++] = c`. A byte outside the buffer would be lost. -/
def store (capacity : Nat) (buf : Bytes) (c : UInt8) : Bytes :=
  if buf.length < capacity then buf ++ [c] else buf

/-- The capacity before a byte is stored. -/
def grown (capacity : Nat) (buf : Bytes) : Nat :=
  if buf.length + 1 ≥ capacity then capacity * 2 else capacity

/-- The loop of `read_line`: the buffer, its capacity, and what is left of the file. -/
def readInto (buf : Bytes) (capacity : Nat) : Bytes → Bytes × Nat × Bytes
  | [] => (buf, capacity, [])
  | c :: file =>
    if c = 10 then (buf, capacity, file)
    else
      let capacity := grown capacity buf
      readInto (store capacity buf c) capacity file

def withoutCr (line : Bytes) : Bytes := if line.getLast? = some 13 then line.dropLast else line

/-- `read_line`: the line and what is left of the file, or `none` at its end. -/
def readLine (file : Bytes) : Option (Bytes × Bytes) :=
  if file = [] then none
  else
    let read := readInto [] 128 file
    some (withoutCr read.1, read.2.2)

/-- The loop that collects the lines, for at most so many of them. -/
def readLines : Nat → Bytes → List Bytes
  | 0, _ => []
  | most + 1, file =>
    match readLine file with
    | none => []
    | some (line, rest) => line :: readLines most rest

/-- `truncate_line` of a line read as a C string. -/
def truncateLine (line : Bytes) : Bytes :=
  let line := line.takeWhile (· ≠ 0)
  if line.length ≤ maxContextLineLength then line else line.take maxContextLineLength ++ ascii "..."

/-- What is written about the line of that index. -/
def contextJson (lines : List Bytes) (index : Nat) : Bytes :=
  let first := if index ≥ contextLines then index - contextLines else 0
  let last := if index + contextLines > lines.length - 1 then lines.length - 1
    else index + contextLines
  let text := fun i => jsonString (truncateLine (lines.getD i []))
  ascii ",\"context_line\":" ++ text index ++
    ascii ",\"pre_context\":[" ++ commaSeparated ((List.range' first (index - first)).map text) ++
    ascii "],\"post_context\":[" ++
    commaSeparated ((List.range' (index + 1) (last - index)).map text) ++ ascii "]"

/-- `forgeops_source_context_json`. `content` is what reading the file gives, `none` when that
fails. -/
def sourceContextJson (config : Option Configuration) (inApp : Bool)
    (file content : Option Bytes) (line : Int) : Option Bytes :=
  match config, file with
  | some config, some file =>
    if ¬config.captureSourceContext ∨ config.strictPrivacy ∨ ¬inApp then none
    else if file = [] ∨ line ≤ 0 then none
    else
      match content with
      | none => none
      | some content =>
        let lines := readLines content.length content
        let index := (line - 1).toNat
        if index < lines.length then some (contextJson lines index) else none
  | _, _ => none

/-! ## The lines of a file -/

/-- A file and its lines: each ends in LF or CRLF, the last one perhaps in neither. A lone CR ends
no line. -/
inductive HasLines : Bytes → List Bytes → Prop
  | empty : HasLines [] []
  | unended {line : Bytes} (hline : 10 ∉ line) (hne : line ≠ []) : HasLines line [line]
  | lf {line rest : Bytes} {lines : List Bytes} (hline : 10 ∉ line) (hcr : line.getLast? ≠ some 13)
      (h : HasLines rest lines) : HasLines (line ++ [10] ++ rest) (line :: lines)
  | crlf {line rest : Bytes} {lines : List Bytes} (hline : 10 ∉ line) (h : HasLines rest lines) :
      HasLines (line ++ [13, 10] ++ rest) (line :: lines)

theorem HasLines.length_le {file : Bytes} {lines : List Bytes} (h : HasLines file lines) :
    lines.length ≤ file.length := by
  induction h with
  | empty => exact Nat.le_refl 0
  | unended hline hne => exact List.length_pos_of_ne_nil hne
  | lf hline hcr h ih =>
    simp only [List.length_append, List.length_cons, List.length_nil]
    omega
  | crlf hline h ih =>
    simp only [List.length_append, List.length_cons, List.length_nil]
    omega

theorem HasLines.ne_nil {file line : Bytes} {lines : List Bytes}
    (h : HasLines file (line :: lines)) : file ≠ [] := by
  rintro rfl
  exact absurd h.length_le (by simp)

/-- Every file has lines. -/
theorem exists_hasLines (file : Bytes) : ∃ lines, HasLines file lines := by
  induction hlength : file.length using Nat.strong_induction_on generalizing file with
  | _ n ih =>
    by_cases hin : 10 ∈ file
    · obtain ⟨line, rest, rfl, hline⟩ := List.eq_append_cons_of_mem hin
      have hshorter : rest.length < n := by
        rw [← hlength, List.length_append, List.length_cons]
        omega
      obtain ⟨lines, hrest⟩ := ih rest.length hshorter rest rfl
      by_cases hcr : line.getLast? = some 13
      · obtain ⟨before, rfl⟩ := List.getLast?_eq_some_iff.mp hcr
        have hfile : before ++ [13] ++ 10 :: rest = before ++ [13, 10] ++ rest := by simp
        rw [hfile]
        exact ⟨_, .crlf (fun h => hline (List.mem_append_left _ h)) hrest⟩
      · have hfile : line ++ 10 :: rest = line ++ [10] ++ rest := by simp
        rw [hfile]
        exact ⟨_, .lf hline hcr hrest⟩
    · by_cases hne : file = []
      · exact ⟨[], hne ▸ .empty⟩
      · exact ⟨[file], .unended hin hne⟩

/-- There is room for the byte and for a NUL behind it. -/
theorem lt_grown {buf : Bytes} {capacity : Nat} (h : buf.length < capacity) :
    buf.length + 1 < grown capacity buf := by
  unfold grown
  split <;> omega

theorem store_eq {buf : Bytes} {capacity : Nat} (h : buf.length < capacity) (c : UInt8) :
    store (grown capacity buf) buf c = buf ++ [c] :=
  if_pos (Nat.lt_of_succ_lt (lt_grown h))

/-- However often the buffer grows, it takes the bytes of a line and keeps room for the NUL. -/
theorem readInto_append {line : Bytes} (hline : 10 ∉ line) {buf : Bytes} {capacity : Nat}
    (h : buf.length < capacity) (rest : Bytes) :
    ∃ capacity', (buf ++ line).length < capacity' ∧
      readInto buf capacity (line ++ rest) = readInto (buf ++ line) capacity' rest := by
  induction line generalizing buf capacity with
  | nil => exact ⟨capacity, by rwa [List.append_nil], by rw [List.append_nil, List.nil_append]⟩
  | cons c line ih =>
    obtain ⟨hc, hrest⟩ := List.ne_and_not_mem_of_not_mem_cons hline
    have hroom : (buf ++ [c]).length < grown capacity buf := by
      rw [List.length_append, List.length_singleton]
      exact lt_grown h
    obtain ⟨capacity', hlt, heq⟩ := ih hrest hroom
    rw [List.append_assoc, List.singleton_append] at hlt heq
    refine ⟨capacity', hlt, ?_⟩
    rw [List.cons_append, readInto, if_neg (Ne.symm hc)]
    dsimp only
    rw [store_eq h, heq]

theorem readLine_ended {line : Bytes} (hline : 10 ∉ line) (rest : Bytes) :
    readLine (line ++ [10] ++ rest) = some (withoutCr line, rest) := by
  have hne : line ++ [10] ++ rest ≠ [] := by simp
  obtain ⟨capacity, -, heq⟩ := readInto_append hline
    (show ([] : Bytes).length < 128 by decide) ([10] ++ rest)
  rw [readLine, if_neg hne, List.append_assoc, heq, List.singleton_append, readInto, if_pos rfl,
    List.nil_append]

theorem readLine_unended {line : Bytes} (hline : 10 ∉ line) (hne : line ≠ []) :
    readLine line = some (withoutCr line, []) := by
  obtain ⟨capacity, -, heq⟩ := readInto_append hline (show ([] : Bytes).length < 128 by decide) []
  rw [List.append_nil, List.nil_append, readInto] at heq
  rw [readLine, if_neg hne, heq]

theorem withoutCr_of_ne {line : Bytes} (h : line.getLast? ≠ some 13) :
    withoutCr line = line := if_neg h

theorem withoutCr_append (line : Bytes) : withoutCr (line ++ [13]) = line := by
  rw [withoutCr, if_pos List.getLast?_concat, List.dropLast_concat]

/-- What is read as the line of that index: the last line of the file without the CR at its end. -/
def readAs (file : Bytes) (lines : List Bytes) (k : Nat) (line : Bytes) : Bytes :=
  if file.getLast? = some 13 ∧ k + 1 = lines.length then line.dropLast else line

/-- A line with another one behind it is read as it is, and so is one that a newline ends. -/
theorem readAs_ended {before rest : Bytes} {lines : List Bytes} (h : HasLines rest lines)
    (line : Bytes) : (line :: lines).mapIdx (readAs (before ++ [10] ++ rest) (line :: lines)) =
      line :: lines.mapIdx (readAs rest lines) := by
  cases lines with
  | nil =>
    cases h with
    | empty => simp [readAs]
  | cons next lines =>
    have hne : rest ≠ [] := h.ne_nil
    have hlast : (before ++ [10] ++ rest).getLast? = rest.getLast? :=
      List.getLast?_append_of_ne_nil _ hne
    have hhead : readAs (before ++ [10] ++ rest) (line :: next :: lines) 0 line = line :=
      if_neg fun h => absurd h.2 (by simp)
    have htail : (fun i => readAs (before ++ [10] ++ rest) (line :: next :: lines) (i + 1)) =
        readAs rest (next :: lines) := by
      funext i other
      simp only [readAs, hlast, List.length_cons, Nat.add_right_cancel_iff]
    rw [List.mapIdx_cons, hhead, htail]

theorem readLines_eq {file : Bytes} {lines : List Bytes} (h : HasLines file lines) {most : Nat}
    (hmost : lines.length ≤ most) : readLines most file = lines.mapIdx (readAs file lines) := by
  induction h generalizing most with
  | empty => cases most <;> rfl
  | @unended line hline hne =>
    obtain ⟨most, rfl⟩ := Nat.exists_eq_add_one_of_ne_zero (Nat.ne_of_gt hmost)
    have hdone : readLines most [] = [] := by cases most <;> rfl
    rw [readLines, readLine_unended hline hne]
    simp only [hdone, List.mapIdx_cons, List.mapIdx_nil, readAs, List.length_singleton,
      Nat.zero_add, and_true]
    rfl
  | @lf line rest lines hline hcr h ih =>
    obtain ⟨most, rfl⟩ := Nat.exists_eq_add_one_of_ne_zero
      (Nat.ne_of_gt (Nat.lt_of_lt_of_le (Nat.zero_lt_succ _) hmost))
    rw [readLines, readLine_ended hline]
    dsimp only
    rw [ih (Nat.le_of_succ_le_succ hmost), withoutCr_of_ne hcr, readAs_ended h]
  | @crlf line rest lines hline h ih =>
    obtain ⟨most, rfl⟩ := Nat.exists_eq_add_one_of_ne_zero
      (Nat.ne_of_gt (Nat.lt_of_lt_of_le (Nat.zero_lt_succ _) hmost))
    have hcr : 10 ∉ line ++ [13] := by simpa using hline
    have hfile : line ++ [13, 10] ++ rest = line ++ [13] ++ [10] ++ rest := by simp
    rw [hfile, readLines, readLine_ended hcr]
    dsimp only
    rw [ih (Nat.le_of_succ_le_succ hmost), withoutCr_append, readAs_ended h]

/-! ## What is shown of a line -/

/-- The whole line, or the longest part of it within the limit that ends between two characters,
and three dots. -/
def Shown (line shown : Bytes) : Prop :=
  if line.length ≤ maxContextLineLength then shown = line
  else ∃ kept rest, line = kept ++ rest ∧ kept.length ≤ maxContextLineLength ∧ Boundary rest ∧
    (∀ kept' rest', line = kept' ++ rest' → kept'.length ≤ maxContextLineLength → Boundary rest' →
      kept'.length ≤ kept.length) ∧
    shown = kept ++ ascii "..."

/-- A character begins where the limit is reached. -/
def CutsCleanly (line : Bytes) : Prop :=
  maxContextLineLength < line.length → Boundary (line.drop maxContextLineLength)

theorem shown_short {line : Bytes} (h : line.length ≤ maxContextLineLength) (shown : Bytes) :
    Shown line shown ↔ shown = line := by rw [Shown, if_pos h]

/-- Where the limit falls between two characters, the part within it is kept. -/
theorem shown_long {line : Bytes} (h : maxContextLineLength < line.length)
    (hclean : Boundary (line.drop maxContextLineLength)) (shown : Bytes) :
    Shown line shown ↔ shown = line.take maxContextLineLength ++ ascii "..." := by
  have hline : line = line.take maxContextLineLength ++ line.drop maxContextLineLength :=
    (List.take_append_drop _ _).symm
  have hlength : (line.take maxContextLineLength).length = maxContextLineLength := by
    rw [List.length_take]
    omega
  rw [Shown, if_neg (Nat.not_le.mpr h)]
  constructor
  · rintro ⟨kept, rest, heq, hkept, -, hmost, rfl⟩
    have hfull : kept.length = maxContextLineLength :=
      Nat.le_antisymm hkept (hlength ▸ hmost _ _ hline (Nat.le_of_eq hlength) hclean)
    rw [heq, ← hfull, List.take_left]
  · rintro rfl
    exact ⟨_, _, hline, Nat.le_of_eq hlength, hclean,
      fun kept' _ _ hkept' _ => hlength.symm ▸ hkept', rfl⟩

/-- A cut at the limit shows the line only if a character begins there. -/
theorem boundary_of_shown {line : Bytes} (h : maxContextLineLength < line.length)
    (hshown : Shown line (line.take maxContextLineLength ++ ascii "...")) :
    Boundary (line.drop maxContextLineLength) := by
  rw [Shown, if_neg (Nat.not_le.mpr h)] at hshown
  obtain ⟨kept, rest, heq, -, hrest, -, hcut⟩ := hshown
  have hkept : line.take maxContextLineLength = kept := List.append_cancel_right hcut
  have hdrop : line.drop maxContextLineLength = rest := by
    have hboth := (List.take_append_drop maxContextLineLength line).trans heq
    rw [hkept] at hboth
    exact List.append_cancel_left hboth
  rw [hdrop]
  exact hrest

theorem Shown.utf8 {line shown : Bytes} (h : Shown line shown) (hline : Utf8 line) :
    Utf8 shown := by
  unfold Shown at h
  split at h
  · rw [h]
    exact hline
  · obtain ⟨kept, rest, rfl, -, hrest, -, rfl⟩ := h
    exact (hline.split hrest).1.append (utf8_of_isAscii rfl)

theorem truncateLine_short {line : Bytes} (hnul : 0 ∉ line)
    (h : line.length ≤ maxContextLineLength) : truncateLine line = line := by
  rw [truncateLine, takeWhile_no_nul hnul]
  exact if_pos h

theorem truncateLine_long {line : Bytes} (hnul : 0 ∉ line)
    (h : maxContextLineLength < line.length) :
    truncateLine line = line.take maxContextLineLength ++ ascii "..." := by
  rw [truncateLine, takeWhile_no_nul hnul]
  exact if_neg (Nat.not_le.mpr h)

theorem shown_truncateLine_iff {line : Bytes} (hnul : 0 ∉ line) :
    Shown line (truncateLine line) ↔ CutsCleanly line := by
  rcases Nat.lt_or_ge maxContextLineLength line.length with hlong | hshort
  · rw [truncateLine_long hnul hlong]
    exact ⟨fun hshown _ => boundary_of_shown hlong hshown,
      fun hclean => (shown_long hlong (hclean hlong) _).mpr rfl⟩
  · rw [truncateLine_short hnul hshort]
    exact iff_of_true ((shown_short hshort _).mpr rfl) fun hlong =>
      absurd hlong (Nat.not_lt.mpr hshort)

/-- A lone CR at the end of the line is missing from what is shown, unless it is cut off anyway. -/
theorem shown_truncateLine_dropLast_iff {line : Bytes} (hnul : 0 ∉ line)
    (hcr : line.getLast? = some 13) :
    Shown line (truncateLine line.dropLast) ↔ maxContextLineLength + 1 < line.length ∧
    CutsCleanly line := by
  obtain ⟨before, rfl⟩ := List.getLast?_eq_some_iff.mp hcr
  have hbefore : 0 ∉ before := fun h => hnul (List.mem_append_left _ h)
  have hlength : (before ++ [13]).length = before.length + 1 := List.length_append
  rw [List.dropLast_concat]
  rcases Nat.lt_or_ge maxContextLineLength before.length with hlong | hshort
  · have htake : (before ++ [13]).take maxContextLineLength = before.take maxContextLineLength :=
      List.take_append_of_le_length (Nat.le_of_lt hlong)
    have hlonger : maxContextLineLength < (before ++ [13]).length := by omega
    rw [truncateLine_long hbefore hlong, ← htake, hlength]
    constructor
    · exact fun hshown => ⟨Nat.succ_lt_succ hlong, fun _ => boundary_of_shown hlonger hshown⟩
    · exact fun h => (shown_long hlonger (h.2 hlonger) _).mpr rfl
  · rw [truncateLine_short hbefore hshort, hlength]
    refine iff_of_false (fun hshown => ?_) fun h => absurd h.1 (by omega)
    rcases Nat.lt_or_ge maxContextLineLength (before ++ [13]).length with hone | hnone
    · have hexact : before.length = maxContextLineLength := by omega
      have hclean : Boundary ((before ++ [13]).drop maxContextLineLength) := by
        rw [← hexact, List.drop_left]
        exact boundary_of_isAscii rfl []
      have hcut := congrArg List.length ((shown_long hone hclean _).mp hshown)
      rw [List.length_append, List.length_take, show (ascii "...").length = 3 from rfl] at hcut
      omega
    · have hsame := congrArg List.length ((shown_short hnone _).mp hshown)
      omega

theorem utf8_array {texts : List Bytes} (h : ∀ t ∈ texts, Utf8 t) : Utf8 (Json.array texts) := by
  have hopen : Utf8 (ascii "[") := utf8_of_isAscii rfl
  have hclose : Utf8 (ascii "]") := utf8_of_isAscii rfl
  rw [Json.array, ← commaSeparated_eq_joined]
  exact hopen.append ((utf8_commaSeparated h).append hclose)

/-! ## The window -/

/-- The line of that index is written, or is one of those around it. -/
def InWindow (index k : Nat) : Prop := index ≤ k + contextLines ∧ k ≤ index + contextLines

/-- The text is the members of an object, behind a comma: the line, up to five lines before it and
up to five behind it, in order. -/
def IsContext (lines : List Bytes) (index : Nat) (text : Bytes) : Prop :=
  ∃ (shown : Nat → Bytes) (members : Bytes), text = ascii "," ++ members ∧ Utf8 text ∧
    (∀ k line, lines[k]? = some line → InWindow index k → Shown line (shown k)) ∧
    Json.parse (ascii "\x7b" ++ members ++ ascii "\x7d") =
      some (.object
        [(ascii "context_line", .string (shown index)),
          (ascii "pre_context",
            .array ((List.range' (index - contextLines) (min index contextLines)).map
              fun k => .string (shown k))),
          (ascii "post_context",
            .array ((List.range' (index + 1) (min (lines.length - 1 - index) contextLines)).map
              fun k => .string (shown k)))])

/-- What the texts are made of. -/
def contextMembers (lines : List Bytes) (index : Nat) : List Json.Member :=
  let text := fun i => jsonString (truncateLine (lines.getD i []))
  [⟨ascii "context_line", text index⟩,
    ⟨ascii "pre_context",
      Json.array ((List.range' (index - contextLines) (min index contextLines)).map text)⟩,
    ⟨ascii "post_context",
      Json.array ((List.range' (index + 1)
        (min (lines.length - 1 - index) contextLines)).map text)⟩]

theorem contextJson_eq (lines : List Bytes) {index : Nat} (hindex : index < lines.length) :
    contextJson lines index = ascii "," ++
      Json.joined ((contextMembers lines index).map Json.Member.text) := by
  have hfirst : (if index ≥ contextLines then index - contextLines else 0) =
      index - contextLines := by
    split <;> omega
  have hbefore : index - (index - contextLines) = min index contextLines := by omega
  have hafter : (if index + contextLines > lines.length - 1 then lines.length - 1
      else index + contextLines) - index = min (lines.length - 1 - index) contextLines := by
    split <;> omega
  rw [contextJson]
  dsimp only
  rw [hfirst, hbefore, hafter]
  simp [contextMembers, Json.joined, Json.Member.text, Json.array, Json.quoted,
    commaSeparated_eq_joined, ascii]

theorem parse_contextMembers (lines : List Bytes) (index : Nat) :
    let value := fun k => Json.Value.string (truncateLine (lines.getD k []))
    Json.parse (Json.object (contextMembers lines index)) =
      some (.object
        [(ascii "context_line", value index),
          (ascii "pre_context",
            .array ((List.range' (index - contextLines) (min index contextLines)).map value)),
          (ascii "post_context",
            .array ((List.range' (index + 1) (min (lines.length - 1 - index) contextLines)).map
              value))]) := by
  intro value
  have htexts : ∀ ks : List Nat, List.Forall₂ Json.Reads
      (ks.map fun i => jsonString (truncateLine (lines.getD i []))) (ks.map value) := by
    intro ks
    rw [List.forall₂_map_left_iff, List.forall₂_map_right_iff, List.forall₂_same]
    exact fun k _ => reads_jsonString _
  refine (Json.reads_object ?_).parse
  refine .cons (readsMember_string rfl _) (.cons ?_ (.cons ?_ .nil))
  · exact readsMember_plain rfl (Json.reads_array (htexts _))
  · exact readsMember_plain rfl (Json.reads_array (htexts _))

theorem inWindow_cases {index k count : Nat} (h : InWindow index k) (hk : k < count) :
    k ∈ List.range' (index - contextLines) (min index contextLines) ∨ k = index ∨
      k ∈ List.range' (index + 1) (min (count - 1 - index) contextLines) := by
  obtain ⟨hlow, hhigh⟩ := h
  simp only [List.mem_range'_1]
  omega

theorem inWindow_of_before {index k : Nat}
    (h : k ∈ List.range' (index - contextLines) (min index contextLines)) : InWindow index k := by
  rw [List.mem_range'_1] at h
  constructor <;> omega

theorem inWindow_of_after {index k count : Nat}
    (h : k ∈ List.range' (index + 1) (min (count - 1 - index) contextLines)) :
    InWindow index k ∧ k < count := by
  rw [List.mem_range'_1] at h
  refine ⟨⟨?_, ?_⟩, ?_⟩ <;> omega

/-- The text written about the lines as they are read, against the lines that there are. -/
theorem isContext_iff {lines read : List Bytes} {index : Nat} (hindex : index < lines.length)
    (hlength : read.length = lines.length) (hutf8 : ∀ line ∈ lines, Utf8 line) :
    IsContext lines index (contextJson read index) ↔
      ∀ k line,
        lines[k]? = some line → InWindow index k → Shown line (truncateLine (read.getD k [])) := by
  have htext := contextJson_eq read (hlength ▸ hindex)
  have hparse := parse_contextMembers read index
  rw [hlength] at hparse
  constructor
  · rintro ⟨shown, members, heq, -, hshown, hvalue⟩ k line hk hwindow
    obtain rfl : Json.joined ((contextMembers read index).map Json.Member.text) = members :=
      List.append_cancel_left (htext.symm.trans heq)
    have hobject := Option.some.inj (hparse.symm.trans hvalue)
    simp only [Json.Value.object.injEq, List.cons.injEq, Prod.mk.injEq, Json.Value.string.injEq,
      Json.Value.array.injEq, true_and, and_true, List.map_inj_left] at hobject
    obtain ⟨hculprit, hbefore, hafter⟩ := hobject
    have hsame : truncateLine (read.getD k []) = shown k := by
      rcases inWindow_cases hwindow (List.getElem?_eq_some_iff.mp hk).1 with hk' | rfl | hk'
      · exact hbefore k hk'
      · exact hculprit
      · exact hafter k hk'
    rw [hsame]
    exact hshown k line hk hwindow
  · intro h
    refine ⟨fun k => truncateLine (read.getD k []), _, htext, ?_, h, hparse⟩
    have hshown : ∀ k, k < lines.length → InWindow index k →
        Utf8 (jsonString (truncateLine (read.getD k []))) :=
      fun k hk hwindow => utf8_jsonString ((h k _ (List.getElem?_eq_getElem hk) hwindow).utf8
        (hutf8 _ (List.getElem_mem hk)))
    have hname : ∀ name : Bytes, name.all Byte.isAscii = true → Utf8 name := fun _ =>
      utf8_of_isAscii
    have hmembers : Utf8 (Json.object (contextMembers read index)) := by
      refine utf8_object fun m hm => ?_
      simp only [contextMembers, List.mem_cons, List.not_mem_nil, or_false] at hm
      rcases hm with rfl | rfl | rfl
      · exact ⟨hname _ rfl, hshown index hindex ⟨by omega, by omega⟩⟩
      · refine ⟨hname _ rfl, utf8_array fun t ht => ?_⟩
        obtain ⟨k, hk, rfl⟩ := List.mem_map.mp ht
        have hlt := (List.mem_range'_1.mp hk).2
        exact hshown k (by omega) (inWindow_of_before hk)
      · refine ⟨hname _ rfl, utf8_array fun t ht => ?_⟩
        obtain ⟨k, hk, rfl⟩ := List.mem_map.mp ht
        rw [hlength] at hk
        exact hshown k (inWindow_of_after hk).2 (inWindow_of_after hk).1
    have hinner := hmembers.of_cons (b := 123) rfl
    rw [htext]
    exact (hname _ rfl).append (hinner.split (boundary_of_isAscii rfl [])).1

/-! ## When the lines are shown as they are -/

theorem HasLines.mem {file line : Bytes} {lines : List Bytes} (h : HasLines file lines)
    (hline : line ∈ lines) {c : UInt8} (hc : c ∈ line) : c ∈ file := by
  induction h with
  | empty => exact absurd hline List.not_mem_nil
  | unended => exact List.mem_singleton.mp hline ▸ hc
  | lf _ _ _ ih | crlf _ _ ih =>
    rcases List.mem_cons.mp hline with rfl | hrest
    · exact List.mem_append_left _ (List.mem_append_left _ hc)
    · exact List.mem_append_right _ (ih hrest)

theorem HasLines.utf8 {file : Bytes} {lines : List Bytes} (h : HasLines file lines)
    (hfile : Utf8 file) : ∀ line ∈ lines, Utf8 line := by
  induction h with
  | empty => exact fun _ hline => absurd hline List.not_mem_nil
  | unended => exact List.forall_mem_singleton.mpr hfile
  | lf _ _ _ ih =>
    rw [List.append_assoc] at hfile
    obtain ⟨hline, hrest⟩ := hfile.split (boundary_of_isAscii rfl _)
    exact List.forall_mem_cons.mpr ⟨hline, ih (hrest.of_append rfl)⟩
  | crlf _ _ ih =>
    rw [List.append_assoc] at hfile
    obtain ⟨hline, hrest⟩ := hfile.split (boundary_of_isAscii rfl _)
    exact List.forall_mem_cons.mpr ⟨hline, ih (hrest.of_append rfl)⟩

theorem getLast_ended {before rest : Bytes} {lines : List Bytes} (h : HasLines rest lines)
    (hcr : (before ++ [10] ++ rest).getLast? = some 13) (line : Bytes) :
    rest.getLast? = some 13 ∧ (line :: lines).getLast? = lines.getLast? := by
  cases lines with
  | nil =>
    cases h with
    | empty => simp at hcr
  | cons next lines =>
    exact ⟨by rwa [List.getLast?_append_of_ne_nil _ h.ne_nil] at hcr, List.getLast?_cons_cons⟩

/-- A file that ends in a lone CR has it at the end of its last line. -/
theorem HasLines.getLast_cr {file : Bytes} {lines : List Bytes} (h : HasLines file lines)
    (hcr : file.getLast? = some 13) : ∀ line ∈ lines.getLast?, line.getLast? = some 13 := by
  induction h with
  | empty => exact nofun
  | unended =>
    intro line hline
    obtain rfl := Option.some.inj hline
    exact hcr
  | @lf line rest lines _ _ h ih =>
    obtain ⟨hrest, hlast⟩ := getLast_ended h hcr line
    rw [hlast]
    exact ih hrest
  | @crlf line rest lines _ h ih =>
    have hfile : line ++ [13, 10] ++ rest = line ++ [13] ++ [10] ++ rest := by simp
    obtain ⟨hrest, hlast⟩ := getLast_ended h (hfile ▸ hcr) line
    rw [hlast]
    exact ih hrest

/-- In the window a character begins wherever the limit is reached, and a last line that a lone CR
ends is long enough for it to be cut off. -/
structure ShowsWhole (file : Bytes) (lines : List Bytes) (index : Nat) : Prop where
  cuts : ∀ k line, lines[k]? = some line → InWindow index k → CutsCleanly line
  loneCr : file.getLast? = some 13 → InWindow index (lines.length - 1) →
    ∀ line ∈ lines.getLast?, maxContextLineLength + 1 < line.length

theorem shown_readAs_iff {file : Bytes} {lines : List Bytes} (h : HasLines file lines)
    (hnul : 0 ∉ file) {index : Nat} :
    (∀ k line, lines[k]? = some line → InWindow index k →
    Shown line (truncateLine (readAs file lines k line))) ↔ ShowsWhole file lines index := by
  have hplain : ∀ {k : Nat} {line : Bytes}, lines[k]? = some line → 0 ∉ line := fun hk hin =>
    hnul (h.mem (List.mem_of_getElem? hk) hin)
  have hends : ∀ {k line}, lines[k]? = some line → file.getLast? = some 13 → k + 1 = lines.length →
      line.getLast? = some 13 := by
    intro k line hk hcr hlast
    refine h.getLast_cr hcr line ?_
    rw [List.getLast?_eq_getElem?, ← hlast, Nat.add_sub_cancel]
    exact hk
  constructor
  · intro hall
    constructor
    · intro k line hk hwindow
      have hshown := hall k line hk hwindow
      unfold readAs at hshown
      split at hshown
      · rename_i hlone
        exact ((shown_truncateLine_dropLast_iff (hplain hk) (hends hk hlone.1 hlone.2)).mp hshown).2
      · exact (shown_truncateLine_iff (hplain hk)).mp hshown
    · intro hcr hwindow line hline
      have hk : lines[lines.length - 1]? = some line := by rwa [← List.getLast?_eq_getElem?]
      have hlast : lines.length - 1 + 1 = lines.length := by
        have hlt := (List.getElem?_eq_some_iff.mp hk).1
        omega
      have hshown := hall _ line hk hwindow
      rw [readAs, if_pos ⟨hcr, hlast⟩] at hshown
      exact ((shown_truncateLine_dropLast_iff (hplain hk) (hends hk hcr hlast)).mp hshown).1
  · rintro ⟨hcuts, hlone⟩ k line hk hwindow
    unfold readAs
    split
    · rename_i hcr
      obtain ⟨hcr, hlast⟩ := hcr
      obtain rfl : k = lines.length - 1 := by omega
      have hline : line ∈ lines.getLast? := by rwa [List.getLast?_eq_getElem?]
      exact (shown_truncateLine_dropLast_iff (hplain hk) (hends hk hcr hlast)).mpr
        ⟨hlone hcr hwindow line hline, hcuts _ line hk hwindow⟩
    · exact (shown_truncateLine_iff (hplain hk)).mpr (hcuts k line hk hwindow)

section
variable {config : Configuration} {file content : Bytes} {lines : List Bytes} {number : Nat}

/-- With the feature on, a line of the file gets its text. -/
theorem sourceContextJson_eq (hon : config.captureSourceContext = true)
    (hprivacy : config.strictPrivacy = false) (hfile : file ≠ []) (hlines : HasLines content lines)
    (hfirst : 1 ≤ number) (hlast : number ≤ lines.length) :
    sourceContextJson (some config) true (some file) (some content) number =
      some (contextJson (lines.mapIdx (readAs content lines)) (number - 1)) := by
  have hread := readLines_eq hlines hlines.length_le
  have hindex : number - 1 < (lines.mapIdx (readAs content lines)).length := by
    rw [List.length_mapIdx]
    omega
  have hnumber : ((number : Int) - 1).toNat = number - 1 := by omega
  have hpositive : ¬(file = [] ∨ (number : Int) ≤ 0) := by
    rintro (hempty | hle)
    · exact hfile hempty
    · omega
  simp only [sourceContextJson, hon, hprivacy, hnumber, hread, if_neg hpositive, if_pos hindex,
    not_true_eq_false, Bool.false_eq_true, or_self, if_false]

theorem isContext_read_iff (hlines : HasLines content lines) (hutf8 : Utf8 content) {index : Nat}
    (hindex : index < lines.length) :
    IsContext lines index (contextJson (lines.mapIdx (readAs content lines)) index) ↔
      ∀ k line, lines[k]? = some line → InWindow index k →
        Shown line (truncateLine (readAs content lines k line)) := by
  rw [isContext_iff hindex List.length_mapIdx (hlines.utf8 hutf8)]
  refine forall_congr' fun k => forall_congr' fun line => forall_congr' fun hk => ?_
  rw [List.getD_eq_getElem?_getD, List.getElem?_mapIdx, hk]
  rfl

theorem sourceContextJson_iff (hon : config.captureSourceContext = true)
    (hprivacy : config.strictPrivacy = false) (hfile : file ≠ []) (hlines : HasLines content lines)
    (hutf8 : Utf8 content) (hnul : 0 ∉ content) (hfirst : 1 ≤ number)
    (hlast : number ≤ lines.length) :
    (∃ text, sourceContextJson (some config) true (some file) (some content) number = some text ∧
        IsContext lines (number - 1) text) ↔
      ShowsWhole content lines (number - 1) := by
  rw [sourceContextJson_eq hon hprivacy hfile hlines hfirst hlast]
  simp only [Option.some.injEq, exists_eq_left']
  rw [isContext_read_iff hlines hutf8 (by omega), shown_readAs_iff hlines hnul]

end

theorem threeLines_hasLines : HasLines (ascii "a\r\nb\nc") [ascii "a", ascii "b", ascii "c"] := by
  have hc : HasLines (ascii "c") [ascii "c"] := .unended (by decide) (by decide)
  have hb : HasLines (ascii "b\nc") [ascii "b", ascii "c"] :=
    @HasLines.lf (ascii "b") _ _ (by decide) (by decide) hc
  exact @HasLines.crlf (ascii "a") _ _ (by decide) hb

theorem sourceContextJson_iff_threeLines :
    (∃ text, sourceContextJson (some {}) true (some (ascii "main.c")) (some (ascii "a\r\nb\nc"))
        (2 : Nat) = some text ∧ IsContext [ascii "a", ascii "b", ascii "c"] 1 text) ↔
      ShowsWhole (ascii "a\r\nb\nc") [ascii "a", ascii "b", ascii "c"] 1 :=
  sourceContextJson_iff rfl rfl (by decide) threeLines_hasLines (utf8_of_isAscii rfl) (by decide)
    (by decide) (by decide)

/-- A line with a character of two bytes across the limit. -/
def acrossLimit : Bytes := List.replicate 499 120 ++ [195, 169]

theorem acrossLimit_mem {c : UInt8} (h : c ∈ acrossLimit) : c = 120 ∨ c ∈ [(195 : UInt8), 169] :=
  (List.mem_append.mp h).imp_left List.eq_of_mem_replicate

theorem acrossLimit_hasLines : HasLines acrossLimit [acrossLimit] :=
  .unended (fun h => absurd (acrossLimit_mem h) (by decide))
    (List.append_ne_nil_of_right_ne_nil _ (by decide))

theorem acrossLimit_utf8 : Utf8 acrossLimit := by
  have hxs : (List.replicate 499 (120 : UInt8)).all Byte.isAscii = true :=
    List.all_eq_true.mpr fun c hc => List.eq_of_mem_replicate hc ▸ rfl
  exact (utf8_of_isAscii hxs).append ⟨[Char.ofNat 233], by decide⟩

theorem acrossLimit_misshown :
    HasLines acrossLimit [acrossLimit] ∧ Utf8 acrossLimit ∧ 0 ∉ acrossLimit ∧
      ¬∃ text, sourceContextJson (some {}) true (some (ascii "main.c")) (some acrossLimit)
        (1 : Nat) = some text ∧ IsContext [acrossLimit] 0 text := by
  have hnul : 0 ∉ acrossLimit := fun h => absurd (acrossLimit_mem h) (by decide)
  refine ⟨acrossLimit_hasLines, acrossLimit_utf8, hnul, ?_⟩
  rintro ⟨text, htext, hcontext⟩
  rw [sourceContextJson_eq rfl rfl (by decide) acrossLimit_hasLines (by decide)
    (by decide)] at htext
  obtain rfl := Option.some.inj htext
  have hshows := (shown_readAs_iff acrossLimit_hasLines hnul).mp
    ((isContext_read_iff acrossLimit_hasLines acrossLimit_utf8 (by decide)).mp hcontext)
  have hlength : (List.replicate 499 (120 : UInt8) ++ [195]).length = maxContextLineLength := by
    rw [List.length_append, List.length_replicate]
    rfl
  have hsplit : acrossLimit = List.replicate 499 120 ++ [195] ++ [169] := by
    rw [acrossLimit, List.append_assoc]
    rfl
  have hlong : maxContextLineLength < acrossLimit.length := by
    rw [hsplit, List.length_append, hlength]
    exact Nat.lt_succ_self _
  have hdrop : acrossLimit.drop maxContextLineLength = [169] :=
    by rw [hsplit, ← hlength, List.drop_left]
  have hclean := hshows.cuts 0 acrossLimit rfl ⟨by decide, by decide⟩ hlong
  rw [hdrop] at hclean
  exact absurd (hclean 169 rfl) (by decide)

end ForgeOps.SourceContext
