import ForgeOpsTracker.Lib.Bytes

/-! Lines of a file, and reading them back through a buffer of fixed size. -/

namespace ForgeOps

def unlines (lines : List Bytes) : Bytes := lines.flatMap (· ++ [10])

@[simp] theorem unlines_nil : unlines [] = [] := rfl

@[simp] theorem unlines_cons (l : Bytes) (ls : List Bytes) :
    unlines (l :: ls) = l ++ 10 :: unlines ls := by
  simp [unlines]

@[simp] theorem unlines_append (ls ms : List Bytes) :
    unlines (ls ++ ms) = unlines ls ++ unlines ms :=
  List.flatMap_append

/-- The C string of a text without a NUL is all of it. -/
theorem takeWhile_no_nul {l : Bytes} (h : 0 ∉ l) : l.takeWhile (fun c => decide (c ≠ 0)) = l := by
  induction l with
  | nil => rfl
  | cons c l ih =>
    obtain ⟨hc, hl⟩ := List.ne_and_not_mem_of_not_mem_cons h
    have hhead : decide (c ≠ 0) = true := decide_eq_true hc.symm
    rw [List.takeWhile_cons, if_pos hhead, ih hl]

/-- `fgets` with room for `room` bytes before the NUL: what it stores and what it leaves. -/
def fgets : Nat → Bytes → Bytes × Bytes
  | 0, file => ([], file)
  | _ + 1, [] => ([], [])
  | room + 1, c :: file =>
    if c = 10 then ([10], file) else (c :: (fgets room file).1, (fgets room file).2)

/-- `while (fgets(line, room + 1, f) != NULL)`, for at most so many reads. -/
def chunks (room : Nat) : Nat → Bytes → List Bytes
  | 0, _ => []
  | reads + 1, file =>
    if (fgets room file).1 = [] then []
    else (fgets room file).1 :: chunks room reads (fgets room file).2

theorem fgets_line {room : Nat} {l : Bytes} (hl : 10 ∉ l) (h : l.length < room) (rest : Bytes) :
    fgets room (l ++ 10 :: rest) = (l ++ [10], rest) := by
  induction l generalizing room with
  | nil =>
    obtain ⟨room, rfl⟩ := Nat.exists_eq_add_one_of_ne_zero (Nat.ne_of_gt h)
    rfl
  | cons c l ih =>
    obtain ⟨room, rfl⟩ := Nat.exists_eq_add_one_of_ne_zero (Nat.ne_of_gt (Nat.zero_lt_of_lt h))
    obtain ⟨hc, hl⟩ := List.ne_and_not_mem_of_not_mem_cons hl
    simp [fgets, Ne.symm hc, ih hl (Nat.lt_of_succ_lt_succ h)]

theorem fgets_last {room : Nat} {l : Bytes} (hl : 10 ∉ l) (h : l.length ≤ room) :
    fgets room l = (l, []) := by
  induction l generalizing room with
  | nil => cases room <;> rfl
  | cons c l ih =>
    obtain ⟨room, rfl⟩ := Nat.exists_eq_add_one_of_ne_zero
      (Nat.ne_of_gt (Nat.lt_of_lt_of_le (Nat.zero_lt_succ _) h))
    obtain ⟨hc, hl⟩ := List.ne_and_not_mem_of_not_mem_cons hl
    simp [fgets, Ne.symm hc, ih hl (Nat.le_of_succ_le_succ h)]

/-- A line as long as the buffer leaves its newline for the next read. -/
theorem fgets_full {room : Nat} {l : Bytes} (hl : 10 ∉ l) (h : l.length = room) (rest : Bytes) :
    fgets room (l ++ rest) = (l, rest) := by
  induction l generalizing room with
  | nil =>
    subst h
    rfl
  | cons c l ih =>
    subst h
    obtain ⟨hc, hl⟩ := List.ne_and_not_mem_of_not_mem_cons hl
    simp [fgets, Ne.symm hc, ih hl rfl]

/-- Lines that fit the buffer are read one by one, and then a last one without its newline. -/
theorem chunks_unlines {room : Nat} {ls : List Bytes} {q : Bytes}
    (hls : ∀ l ∈ ls, 10 ∉ l ∧ l.length < room) (hq : 10 ∉ q) (hroom : q.length ≤ room) {reads : Nat}
    (hreads : (unlines ls ++ q).length ≤ reads) :
    chunks room reads (unlines ls ++ q) =
      ls.map (· ++ [10]) ++ (if q = [] then [] else [q]) := by
  have hnil : ∀ reads, chunks room reads [] = [] := by
    intro reads
    cases reads with
    | zero => rfl
    | succ n => cases room <;> rfl
  induction ls generalizing reads with
  | nil =>
    show chunks room reads q = if q = [] then [] else [q]
    cases reads with
    | zero =>
      obtain rfl := List.length_eq_zero_iff.mp (Nat.le_zero.mp hreads)
      rfl
    | succ reads => rw [chunks, fgets_last hq hroom, hnil]
  | cons l ls ih =>
    obtain ⟨hl, hlen⟩ := hls l List.mem_cons_self
    simp only [unlines_cons, List.length_append, List.length_cons] at hreads
    obtain ⟨reads, rfl⟩ := Nat.exists_eq_add_one_of_ne_zero (show reads ≠ 0 by omega)
    have hfuel : (unlines ls ++ q).length ≤ reads := by
      rw [List.length_append]
      omega
    have hrest := ih (fun m hm => hls m (List.mem_cons_of_mem _ hm)) hfuel
    rw [unlines_cons, List.append_assoc, List.cons_append, chunks, fgets_line hl hlen, hrest]
    simp

/-- A file cut anywhere: whole lines, and the head of the next one. -/
theorem prefix_unlines {p : Bytes} {ls : List Bytes} (h : p <+: unlines ls) :
    ∃ ls₁ q, p = unlines ls₁ ++ q ∧
      ((ls₁ = ls ∧ q = []) ∨ ∃ l ls₂, ls = ls₁ ++ l :: ls₂ ∧ q <+: l) := by
  induction ls generalizing p with
  | nil =>
    obtain rfl := List.prefix_nil.mp h
    exact ⟨[], [], rfl, .inl ⟨rfl, rfl⟩⟩
  | cons l ls ih =>
    rw [unlines_cons] at h
    obtain ⟨t, ht⟩ := h
    rcases List.append_eq_append_iff.mp ht with ⟨s, rfl, -⟩ | ⟨r, rfl, hr⟩
    · exact ⟨[], p, rfl, .inr ⟨p ++ s, ls, rfl, List.prefix_append _ _⟩⟩
    · cases r with
      | nil => exact ⟨[], l, by simp, .inr ⟨l, ls, rfl, List.prefix_refl l⟩⟩
      | cons c r =>
        obtain ⟨rfl, hin⟩ := List.cons_prefix_cons.mp ⟨t, hr.symm⟩
        obtain ⟨ls₁, q, rfl, hcut⟩ := ih hin
        refine ⟨l :: ls₁, q, by simp, ?_⟩
        rcases hcut with ⟨rfl, rfl⟩ | ⟨m, ls₂, rfl, hq⟩
        · exact .inl ⟨rfl, rfl⟩
        · exact .inr ⟨m, ls₂, rfl, hq⟩

/-- An element of two lists put together stands in the one or in the other. -/
theorem append_eq_append_cons {α : Type*} {as bs ls ls' : List α} {l : α}
    (h : as ++ bs = ls ++ l :: ls') :
    (∃ as', as = ls ++ l :: as') ∨ ∃ bs', ls = as ++ bs' ∧ bs = bs' ++ l :: ls' := by
  rcases List.append_eq_append_iff.mp h with ⟨bs', rfl, rfl⟩ | ⟨cs, rfl, hcs⟩
  · exact .inr ⟨bs', rfl, rfl⟩
  · cases cs with
    | nil => exact .inr ⟨[], by simp, hcs.symm⟩
    | cons c cs =>
      obtain ⟨rfl, -⟩ := List.cons.inj hcs
      exact .inl ⟨cs, rfl⟩

end ForgeOps
