import ForgeOpsTracker.Sha256
import ForgeOpsTracker.Lib.Sha2

/-! `sha256` gives the digest of FIPS 180-4. It never builds the padded message: the whole
blocks are compressed where they lie, and what is left is written into a `tail` of 128 bytes
together with the padding. -/

namespace ForgeOps.Sha256

/-! ## The tail buffer -/

/-- `buffer[place] = byte`; `none` when that is outside of the buffer. -/
def put (buffer : Bytes) (place : Nat) (byte : UInt8) : Option Bytes :=
  if place < buffer.length then some (buffer.set place byte) else none

/-- `memcpy(buffer, source, ...)` of all of the source. -/
def copyInto (buffer source : Bytes) : Option Bytes :=
  if source.length ≤ buffer.length then some (source ++ buffer.drop source.length) else none

def tailLength (rest : Nat) : Nat := if rest + 9 ≤ 64 then 64 else 128

/-- The loop that writes the eight bytes of the length, the last of them first. -/
def putLength (tail : Bytes) (tailLength : Nat) (bits : UInt64) : Option Bytes :=
  (List.range 8).foldlM (fun tail i =>
    put tail (tailLength - 1 - i) (bits >>> UInt64.ofNat (i * 8)).toUInt8) tail

/-- What is written into `tail` behind the whole blocks. -/
def writeTail (rest : Bytes) (length : Nat) : Option Bytes :=
  (copyInto (List.replicate 128 0) rest).bind fun tail =>
    (put tail rest.length 0x80).bind fun tail =>
      putLength tail (tailLength rest.length) (UInt64.ofNat length * 8)

/-- `sha256` with its buffer; `none` when a write leaves it. -/
def sha256In (data : Bytes) : Option Bytes :=
  let whole := data.length - data.length % 64
  let state := compressBlocks (whole / 64) initialState data
  let rest := data.drop whole
  (writeTail rest data.length).map fun tail =>
    let s := compressBlocks (tailLength rest.length / 64) state tail
    [s.a, s.b, s.c, s.d, s.e, s.f, s.g, s.h].flatMap wordBytes

theorem put_append (before after : Bytes) (c byte : UInt8) :
    put (before ++ c :: after) before.length byte = some (before ++ byte :: after) := by
  have hlt : before.length < (before ++ c :: after).length := by
    rw [List.length_append, List.length_cons]
    omega
  rw [put, if_pos hlt, List.set_append_right _ _ (Nat.le_refl _), Nat.sub_self, List.set_cons_zero]

/-- Bytes are written from the last place of a field to its first. -/
theorem putField (f : Nat → UInt8) (before field after : Bytes) {n : Nat} (hn : n ≤ field.length) :
    (List.range n).foldlM (fun tail i => put tail (before.length + field.length - 1 - i) (f i))
        (before ++ field ++ after) =
      some (before ++ field.take (field.length - n) ++ (List.range n).reverse.map f ++ after) := by
  induction n with
  | zero => simp
  | succ n ih =>
    obtain ⟨k, hk⟩ : ∃ k, field.length = k + (n + 1) := ⟨field.length - (n + 1), by omega⟩
    have hlt : k < field.length := by omega
    have hplace : before.length + field.length - 1 - n = (before ++ field.take k).length := by
      rw [List.length_append, List.length_take]
      omega
    have htake : field.take (field.length - n) = field.take k ++ [field[k]] := by
      rw [← List.take_succ_eq_append_getElem hlt]
      congr 1
      omega
    have hleft : field.length - (n + 1) = k := by omega
    rw [List.range_succ, List.foldlM_append, ih (Nat.le_of_succ_le hn), htake, hleft]
    simp only [List.foldlM_cons, List.foldlM_nil, Option.bind_eq_bind, Option.bind_some,
      Option.pure_def, List.append_assoc, List.singleton_append, List.reverse_append,
      List.reverse_singleton, List.map_cons]
    rw [hplace, ← List.append_assoc, List.cons_append, put_append, Option.bind_some,
      List.append_assoc]
    rfl

theorem lengthBytes_eq (bits : UInt64) : lengthBytes bits =
    (List.range 8).reverse.map fun i => (bits >>> UInt64.ofNat (i * 8)).toUInt8 := rfl

/-- The length takes the place of eight bytes. -/
theorem putLength_append {field : Bytes} (hfield : field.length = 8) (before after : Bytes)
    (bits : UInt64) : putLength (before ++ field ++ after) (before.length + 8) bits =
      some (before ++ lengthBytes bits ++ after) := by
  have hput := putField (fun i => (bits >>> UInt64.ofNat (i * 8)).toUInt8) before field after
    (n := 8) (Nat.le_of_eq hfield.symm)
  rw [hfield, Nat.sub_self, List.take_zero, List.append_nil, ← lengthBytes_eq] at hput
  exact hput

theorem tailLength_cases (rest : Nat) (h : rest < 64) : tailLength rest = 64 ∧ rest + 9 ≤ 64 ∨
    tailLength rest = 128 ∧ 64 < rest + 9 := by
  unfold tailLength
  split <;> omega

theorem length_tailOf {rest : Bytes} (h : rest.length < 64) (length : Nat) :
    (tailOf rest length).length = tailLength rest.length := by
  have hfield : ∀ bits, (lengthBytes bits).length = 8 := fun _ => rfl
  simp only [tailOf, List.length_append, List.length_singleton, List.length_replicate, hfield]
  rcases tailLength_cases rest.length h with ⟨heq, hle⟩ | ⟨heq, hle⟩
  · rw [heq, if_pos hle]
    omega
  · rw [heq, if_neg (Nat.not_le.mpr hle)]
    omega

/-- Every write stays inside the buffer, and behind the tail it is still zero. -/
theorem writeTail_eq {rest : Bytes} (h : rest.length < 64) (length : Nat) :
    writeTail rest length =
      some (tailOf rest length ++ List.replicate (128 - tailLength rest.length) 0) := by
  have hfits : rest.length ≤ (List.replicate 128 (0 : UInt8)).length := by
    rw [List.length_replicate]
    omega
  have hzeros : (List.replicate 128 (0 : UInt8)).drop rest.length =
      0 :: List.replicate (127 - rest.length) 0 := by
    rw [List.drop_replicate, ← List.replicate_succ]
    congr 1
    omega
  have hsplit : rest ++ (0x80 : UInt8) :: List.replicate (127 - rest.length) 0 =
      (rest ++ [0x80] ++ List.replicate (tailLength rest.length - 9 - rest.length) 0) ++
        List.replicate 8 0 ++ List.replicate (128 - tailLength rest.length) 0 := by
    have hzeros : 127 - rest.length =
        tailLength rest.length - 9 - rest.length + 8 + (128 - tailLength rest.length) := by
      rcases tailLength_cases rest.length h with ⟨heq, hle⟩ | ⟨heq, hle⟩ <;> omega
    rw [hzeros]
    simp only [List.append_assoc, List.replicate_append_replicate, List.cons_append,
      List.nil_append]
  have hlength : tailLength rest.length =
      (rest ++ [0x80] ++ List.replicate (tailLength rest.length - 9 - rest.length)
        (0 : UInt8)).length + 8 := by
    simp only [List.length_append, List.length_singleton, List.length_replicate]
    rcases tailLength_cases rest.length h with ⟨heq, hle⟩ | ⟨heq, hle⟩ <;> omega
  have hbits : UInt64.ofNat length * 8 = UInt64.ofNat (length * 8) := (UInt64.ofNat_mul _ _).symm
  rw [writeTail, copyInto, if_pos hfits, Option.bind_some, hzeros, put_append,
    Option.bind_some, hbits]
  have hput := putLength_append (List.length_replicate (n := 8) (a := (0 : UInt8)))
    (rest ++ [0x80] ++ List.replicate (tailLength rest.length - 9 - rest.length) 0)
    (List.replicate (128 - tailLength rest.length) 0) (UInt64.ofNat (length * 8))
  rw [← hlength, ← hsplit] at hput
  exact hput

/-! ## Blocks where they lie -/

theorem sha256Block_append (state : Words) {block : Bytes} (h : 64 ≤ block.length) (more : Bytes) :
    sha256Block state (block ++ more) = sha256Block state block := by
  rw [sha256Block, sha256Block, List.take_append_of_le_length h]

/-- What lies behind the blocks that are compressed does not matter. -/
theorem compressBlocks_append {n : Nat} (state : Words) {data : Bytes} (h : 64 * n ≤ data.length)
    (more : Bytes) : compressBlocks n state (data ++ more) = compressBlocks n state data := by
  induction n generalizing state data with
  | zero => rfl
  | succ n ih =>
    have hrest : 64 * n ≤ (data.drop 64).length := by
      rw [List.length_drop]
      omega
    rw [compressBlocks, compressBlocks, sha256Block_append state (by omega),
      List.drop_append_of_le_length (by omega), ih _ hrest]

theorem rest_lt (data : Bytes) : (data.drop (data.length - data.length % 64)).length < 64 := by
  rw [List.length_drop]
  omega

/-- The buffer is what the list of its bytes stands for. -/
theorem sha256In_eq (data : Bytes) : sha256In data = some (sha256 data) := by
  have hrest := rest_lt data
  have hlength := length_tailOf hrest data.length
  have hblocks : 64 * (tailLength (data.drop (data.length - data.length % 64)).length / 64) ≤
      (tailOf (data.drop (data.length - data.length % 64)) data.length).length := by
    rw [hlength]
    exact Nat.mul_div_le _ _
  rw [sha256In, writeTail_eq hrest, Option.map_some, sha256,
    compressBlocks_append _ hblocks, hlength]

/-! ## One block -/

section
open Sha2

theorem rotr_toBitVec (x : UInt32) {n : UInt32} (hpos : 0 < n.toNat) (h : n.toNat < 32) :
    (rotr x n).toBitVec = x.toBitVec.rotateRight n.toNat := by
  have hback : (4294967296 - n.toNat) % 32 = 32 - n.toNat := by omega
  simp only [rotr, BitVec.rotateRight, BitVec.rotateRightAux, Nat.mod_eq_of_lt h]
  simp [Nat.mod_eq_of_lt h, hback]

/-- Four bytes shifted into their places. -/
theorem bytes_toBitVec (a b c d : UInt8) :
    ((a.toUInt32 <<< 24) ||| (b.toUInt32 <<< 16) ||| (c.toUInt32 <<< 8) ||| d.toUInt32).toBitVec =
      (a.toBitVec ++ b.toBitVec ++ c.toBitVec ++ d.toBitVec : BitVec 32) := by
  have hshift : ∀ (x : UInt8) (n : UInt32), n.toNat < 32 →
      (x.toUInt32 <<< n).toBitVec = x.toBitVec.setWidth 32 <<< n.toNat := by
    intro x n hn
    simp [Nat.mod_eq_of_lt hn]
  have hzero : ∀ (x : UInt8) (k : Nat), 8 ≤ k → x.toBitVec.getLsbD k = false :=
    fun x k hk => BitVec.getLsbD_of_ge _ _ hk
  rw [UInt32.toBitVec_or, UInt32.toBitVec_or, UInt32.toBitVec_or, hshift a 24 (by decide),
    hshift b 16 (by decide), hshift c 8 (by decide)]
  apply BitVec.eq_of_getLsbD_eq
  intro i hi
  simp only [BitVec.getLsbD_or, BitVec.getLsbD_shiftLeft, BitVec.getLsbD_append,
    UInt8.toBitVec_toUInt32, BitVec.getLsbD_setWidth, UInt32.toNat_ofNat]
  grind

/-- The words of a text of `n` times four bytes. -/
theorem bigEndian_eq {s : Bytes} (n : Nat) (hs : s.length = 4 * n) :
    bigEndian s = (List.range n).map fun t => ⟨word s t⟩ := by
  induction n generalizing s with
  | zero =>
    obtain rfl := List.eq_nil_of_length_eq_zero hs
    rfl
  | succ n ih =>
    match s with
    | a :: b :: c :: d :: s =>
      have hlen : s.length = 4 * n := by
        simp only [List.length_cons] at hs
        omega
      rw [bigEndian, ih hlen, List.range_succ_eq_map, List.map_cons, List.map_map]
      congr 1
      apply UInt32.toBitVec_inj.mp
      exact bytes_toBitVec a b c d
    | [] | [_] | [_, _] | [_, _, _] =>
      simp only [List.length_cons, List.length_nil] at hs
      omega

/-- A word of the schedule as the code holds it. -/
def scheduled (block : Bytes) (t : Nat) : UInt32 := ⟨schedule block t⟩

section
variable (x : UInt32)

theorem sigma0_toBitVec : (rotr x 7 ^^^ rotr x 18 ^^^ (x >>> 3)).toBitVec = sigma0 x.toBitVec := by
  rw [UInt32.toBitVec_xor, UInt32.toBitVec_xor, rotr_toBitVec x (by decide) (by decide),
    rotr_toBitVec x (by decide) (by decide)]
  rfl

theorem sigma1_toBitVec : (rotr x 17 ^^^ rotr x 19 ^^^ (x >>> 10)).toBitVec =
    sigma1 x.toBitVec := by
  rw [UInt32.toBitVec_xor, UInt32.toBitVec_xor, rotr_toBitVec x (by decide) (by decide),
    rotr_toBitVec x (by decide) (by decide)]
  rfl

theorem bigSigma0_toBitVec : (rotr x 2 ^^^ rotr x 13 ^^^ rotr x 22).toBitVec =
    bigSigma0 x.toBitVec := by
  rw [UInt32.toBitVec_xor, UInt32.toBitVec_xor, rotr_toBitVec x (by decide) (by decide),
    rotr_toBitVec x (by decide) (by decide), rotr_toBitVec x (by decide) (by decide)]
  rfl

theorem bigSigma1_toBitVec : (rotr x 6 ^^^ rotr x 11 ^^^ rotr x 25).toBitVec =
    bigSigma1 x.toBitVec := by
  rw [UInt32.toBitVec_xor, UInt32.toBitVec_xor, rotr_toBitVec x (by decide) (by decide),
    rotr_toBitVec x (by decide) (by decide), rotr_toBitVec x (by decide) (by decide)]
  rfl

end

/-- Each word behind the sixteenth comes of four before it. -/
theorem scheduled_eq (block : Bytes) {t : Nat} (h : 16 ≤ t) : scheduled block t =
    scheduled block (t - 16) +
      (rotr (scheduled block (t - 15)) 7 ^^^ rotr (scheduled block (t - 15)) 18 ^^^
        (scheduled block (t - 15) >>> 3)) +
      scheduled block (t - 7) +
      (rotr (scheduled block (t - 2)) 17 ^^^ rotr (scheduled block (t - 2)) 19 ^^^
        (scheduled block (t - 2) >>> 10)) := by
  apply UInt32.toBitVec_inj.mp
  have hnew : (scheduled block t).toBitVec = sigma1 (schedule block (t - 2)) +
      schedule block (t - 7) + sigma0 (schedule block (t - 15)) + schedule block (t - 16) := by
    rw [scheduled, schedule, if_neg (Nat.not_lt.mpr h)]
  rw [hnew, UInt32.toBitVec_add, UInt32.toBitVec_add, UInt32.toBitVec_add, sigma0_toBitVec,
    sigma1_toBitVec]
  simp only [scheduled]
  ac_rfl

/-- The words that are put behind those of the block are the ones of the schedule. -/
theorem expand_eq (block : Bytes) (n m : Nat) :
    expand n ((List.range (16 + m)).map (scheduled block)) =
      (List.range (16 + m + n)).map (scheduled block) := by
  induction n generalizing m with
  | zero => rfl
  | succ n ih =>
    have hget : ∀ i, 0 < i → i ≤ 16 → ((List.range (16 + m)).map (scheduled block)).getD
        (16 + m - i) 0 = scheduled block (16 + m - i) := by
      intro i hpos hle
      have hlt : 16 + m - i < 16 + m := by omega
      rw [List.getD_eq_getElem?_getD, List.getElem?_map, List.getElem?_range hlt]
      rfl
    have hnext := ih (m + 1)
    rw [← Nat.add_assoc, List.range_succ, List.map_append, List.map_singleton,
      scheduled_eq block (Nat.le_add_right 16 m)] at hnext
    rw [expand]
    simp only [List.length_map, List.length_range, hget 15 (by decide) (by decide),
      hget 2 (by decide) (by decide), hget 16 (by decide) (by decide),
      hget 7 (by decide) (by decide)]
    rw [hnext]
    congr 2
    omega

theorem words_eq {block : Bytes} (hblock : block.length = 64) :
    expand 48 (bigEndian block) = (List.range 64).map (scheduled block) := by
  have hwords : bigEndian block = (List.range (16 + 0)).map (scheduled block) := by
    rw [bigEndian_eq 16 hblock]
    refine List.map_congr_left fun t ht => ?_
    rw [scheduled, schedule, if_pos (List.mem_range.mp ht)]
  rw [hwords, expand_eq]

/-- The table is the one of the standard. -/
theorem sha256K_eq : sha256K.map UInt32.toBitVec = constants := by
  rw [constants, primes_eq]
  decide +kernel

/-- Words as the standard has them. -/
def Words.bits (s : Words) : Variables :=
  ⟨s.a.toBitVec, s.b.toBitVec, s.c.toBitVec, s.d.toBitVec,
   s.e.toBitVec, s.f.toBitVec, s.g.toBitVec, s.h.toBitVec⟩

theorem initialState_bits : initialState.bits = initialHash := by
  rw [initialHash, roots, primes_eq]
  decide +kernel

theorem round_bits (block : Bytes) (s : Words) (t : Nat) :
    (round s (sha256K.getD t 0) (scheduled block t)).bits = turn block s.bits t := by
  have hk : (sha256K.getD t 0).toBitVec = constants.getD t 0 := by
    rw [← sha256K_eq, List.getD_eq_getElem?_getD, List.getD_eq_getElem?_getD, List.getElem?_map]
    cases sha256K[t]? <;> rfl
  simp only [round, Words.bits, turn, UInt32.toBitVec_add, bigSigma0_toBitVec,
    bigSigma1_toBitVec, hk]
  rfl

/-- Compressing a block is what the standard says. -/
theorem sha256Block_bits (state : Words) {block : Bytes} (h : 64 ≤ block.length) :
    (sha256Block state block).bits = compress state.bits (block.take 64) := by
  have hblock : (block.take 64).length = 64 := by
    rw [List.length_take]
    omega
  have hzip : sha256K.zip (expand 48 (bigEndian (block.take 64))) =
      (List.range 64).map fun t => (sha256K.getD t 0, scheduled (block.take 64) t) := by
    have htable : sha256K = (List.range 64).map (sha256K.getD · 0) := by decide
    rw [words_eq hblock, ← List.zip_map', ← htable]
  have hturns : ∀ (ts : List Nat) (s : Words),
      (ts.foldl (fun s t => round s (sha256K.getD t 0) (scheduled (block.take 64) t)) s).bits =
        ts.foldl (turn (block.take 64)) s.bits := by
    intro ts
    induction ts with
    | nil => exact fun _ => rfl
    | cons t ts ih =>
      intro s
      rw [List.foldl_cons, List.foldl_cons, ih, round_bits]
  rw [compress, ← hturns]
  simp only [sha256Block, hzip, List.foldl_map, Words.bits, UInt32.toBitVec_add, BitVec.add_comm]

theorem compressBlocks_bits (n : Nat) (state : Words) {s : Bytes} (h : s.length = 64 * n) :
    (compressBlocks n state s).bits = (blocks s).foldl compress state.bits := by
  induction n generalizing state s with
  | zero =>
    obtain rfl := List.eq_nil_of_length_eq_zero h
    rfl
  | succ n ih =>
    have hle : 64 ≤ s.length := by omega
    have hrest : (s.drop 64).length = 64 * n := by
      rw [List.length_drop]
      omega
    rw [compressBlocks, ih _ hrest, sha256Block_bits state hle, blocks_of_le hle, List.foldl_cons]

theorem compressBlocks_take {n : Nat} (state : Words) {data : Bytes} (h : 64 * n ≤ data.length) :
    (compressBlocks n state data).bits =
      (blocks (data.take (64 * n))).foldl compress state.bits := by
  have hlength : (data.take (64 * n)).length = 64 * n := by
    rw [List.length_take]
    omega
  have hsplit := compressBlocks_append state (Nat.le_of_eq hlength.symm) (data.drop (64 * n))
  rw [List.take_append_drop] at hsplit
  rw [hsplit, compressBlocks_bits n state hlength]

/-! ## The padding -/

/-- The length is written as the standard asks for, if it has no more than 64 bits. -/
theorem lengthBytes_lengthField {length : Nat} (h : length < 2 ^ 61) :
    lengthBytes (UInt64.ofNat (length * 8)) = lengthField length := by
  have hbits : (UInt64.ofNat (length * 8)).toNat = length * 8 := by
    rw [UInt64.toNat_ofNat']
    omega
  have hbyte : ∀ i, i < 8 → (UInt64.ofNat (length * 8) >>> UInt64.ofNat (i * 8)).toUInt8 =
      UInt8.ofNat (length * 8 / 256 ^ i) := by
    intro i hi
    have hshift : (UInt64.ofNat (i * 8)).toNat = i * 8 := by
      rw [UInt64.toNat_ofNat']
      omega
    apply UInt8.toNat_inj.mp
    rw [UInt64.toNat_toUInt8, UInt64.toNat_shiftRight, hbits, hshift,
      Nat.mod_eq_of_lt (by omega : i * 8 < 64), Nat.shiftRight_eq_div_pow, UInt8.toNat_ofNat',
      Nat.mul_comm i 8, Nat.pow_mul]
  have hplaces : (List.range 8).reverse = (List.range 8).map (7 - ·) := by decide
  rw [lengthBytes_eq, lengthField, hplaces, List.map_map]
  exact List.map_congr_left fun i _ => hbyte (7 - i) (by omega)

/-- Behind the whole blocks, the padded message is what `tail` holds. -/
theorem padded_eq {data : Bytes} (h : data.length < 2 ^ 61) : padded data =
    data.take (data.length - data.length % 64) ++
      tailOf (data.drop (data.length - data.length % 64)) data.length := by
  have hrest : (data.drop (data.length - data.length % 64)).length = data.length % 64 := by
    rw [List.length_drop]
    have := Nat.mod_le data.length 64
    omega
  have hzeros : zeros data.length = (if data.length % 64 + 9 ≤ 64 then 64 else 128) - 9 -
      data.length % 64 := by
    rw [zeros_eq]
    split <;> omega
  rw [padded, tailOf, hrest, lengthBytes_lengthField h, hzeros]
  simp only [← List.append_assoc, List.take_append_drop]

theorem wordBytes_eq (w : UInt32) : wordBytes w = bytesOf w.toBitVec := by
  have hbyte : ∀ (x : UInt32) (n : UInt32), n.toNat < 32 →
      (x >>> n).toUInt8 = ⟨x.toBitVec.extractLsb' n.toNat 8⟩ := by
    intro x n hn
    apply UInt8.toNat_inj.mp
    simp [Nat.mod_eq_of_lt hn]
  have hlow : w.toUInt8 = ⟨w.toBitVec.extractLsb' 0 8⟩ := by
    apply UInt8.toNat_inj.mp
    simp
  rw [wordBytes, bytesOf, hbyte w 24 (by decide), hbyte w 16 (by decide),
    hbyte w 8 (by decide), hlow]
  rfl

/-- For every message that the standard has a digest of, no write leaves the buffer, and the
digest is the standard's. -/
theorem sha256In_digest (data : Bytes) (h : data.length < 2 ^ 61) :
    sha256In data = some (digest data) := by
  have hrest := rest_lt data
  have hwhole : data.length - data.length % 64 = 64 * ((data.length - data.length % 64) / 64) := by
    omega
  have htail : (tailOf (data.drop (data.length - data.length % 64)) data.length).length =
      64 * ((tailOf (data.drop (data.length - data.length % 64)) data.length).length / 64) := by
    rw [length_tailOf hrest]
    rcases tailLength_cases _ hrest with ⟨heq, -⟩ | ⟨heq, -⟩ <;> rw [heq]
  have hblocks : (blocks (padded data)).foldl compress initialHash =
      (compressBlocks
        ((tailOf (data.drop (data.length - data.length % 64)) data.length).length / 64)
        (compressBlocks ((data.length - data.length % 64) / 64) initialState data)
        (tailOf (data.drop (data.length - data.length % 64)) data.length)).bits := by
    have hlength : (data.take (data.length - data.length % 64)).length =
        64 * ((data.length - data.length % 64) / 64) := by
      rw [List.length_take]
      omega
    rw [padded_eq h, blocks_append _ hlength, List.foldl_append, compressBlocks_bits _ _ htail,
      compressBlocks_take _ (by omega), ← hwhole, initialState_bits]
  rw [sha256In_eq, sha256, digest, hblocks, Variables.bytes]
  simp only [List.flatMap_cons, List.flatMap_nil, wordBytes_eq]
  rfl

/-- One whole block, and 56 bytes behind it, which leave no room for the length in theirs. -/
theorem sha256In_digest_spilled :
    (List.replicate 120 97 : Bytes).length % 64 = 56 ∧
      sha256In (List.replicate 120 97) = some (digest (List.replicate 120 97)) := by
  have hlength : (List.replicate 120 97 : Bytes).length = 120 := List.length_replicate
  refine ⟨by rw [hlength], sha256In_digest (List.replicate 120 97) ?_⟩
  rw [hlength]
  decide

example : sha256 (ascii "abc") =
    [0xba, 0x78, 0x16, 0xbf, 0x8f, 0x01, 0xcf, 0xea, 0x41, 0x41, 0x40, 0xde, 0x5d, 0xae, 0x22, 0x23,
     0xb0, 0x03, 0x61, 0xa3, 0x96, 0x17, 0x7a, 0x9c, 0xb4, 0x10, 0xff, 0x61, 0xf2, 0x00,
     0x15, 0xad] := by
  decide +kernel

end

end ForgeOps.Sha256
