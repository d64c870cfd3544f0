import Mathlib.Data.Nat.NthRoot.Defs
import Mathlib.Data.Nat.Prime.Defs
import ForgeOpsTracker.Lib.Bytes

/-! SHA-256 as FIPS 180-4 defines it, for messages of whole bytes. -/

namespace ForgeOps.Sha2

abbrev Word := BitVec 32

/-! ## Functions and constants -/

def ch (x y z : Word) : Word := (x &&& y) ^^^ (~~~x &&& z)
def maj (x y z : Word) : Word := (x &&& y) ^^^ (x &&& z) ^^^ (y &&& z)
def bigSigma0 (x : Word) : Word := x.rotateRight 2 ^^^ x.rotateRight 13 ^^^ x.rotateRight 22
def bigSigma1 (x : Word) : Word := x.rotateRight 6 ^^^ x.rotateRight 11 ^^^ x.rotateRight 25
def sigma0 (x : Word) : Word := x.rotateRight 7 ^^^ x.rotateRight 18 ^^^ (x >>> 3)
def sigma1 (x : Word) : Word := x.rotateRight 17 ^^^ x.rotateRight 19 ^^^ (x >>> 10)

/-- The first sixty-four primes. -/
def primes : List Nat := (List.range 312).filter fun n => decide n.Prime

/-- The first thirty-two bits of the fractional parts of the primes' cube roots. -/
def constants : List Word := primes.map fun p => BitVec.ofNat 32 (Nat.nthRoot 3 (p * 2 ^ 96))

/-- The same of the square roots of the first eight. -/
def roots : List Word := (primes.take 8).map fun p => BitVec.ofNat 32 (Nat.sqrt (p * 2 ^ 64))

/-! ## Blocks -/

structure Variables where
  a : Word
  b : Word
  c : Word
  d : Word
  e : Word
  f : Word
  g : Word
  h : Word
  deriving DecidableEq

def initialHash : Variables :=
  let root := fun i => roots.getD i 0
  ⟨root 0, root 1, root 2, root 3, root 4, root 5, root 6, root 7⟩

/-- The word at place `t` of a block. -/
def word (block : Bytes) (t : Nat) : Word :=
  let byte := fun i => (block.getD (4 * t + i) 0).toBitVec
  byte 0 ++ byte 1 ++ byte 2 ++ byte 3

/-- The message schedule. -/
def schedule (block : Bytes) (t : Nat) : Word :=
  if t < 16 then word block t
  else
    sigma1 (schedule block (t - 2)) + schedule block (t - 7) + sigma0 (schedule block (t - 15)) +
      schedule block (t - 16)

def turn (block : Bytes) (v : Variables) (t : Nat) : Variables :=
  let t1 := v.h + bigSigma1 v.e + ch v.e v.f v.g + constants.getD t 0 + schedule block t
  let t2 := bigSigma0 v.a + maj v.a v.b v.c
  ⟨t1 + t2, v.a, v.b, v.c, v.d + t1, v.e, v.f, v.g⟩

def compress (hash : Variables) (block : Bytes) : Variables :=
  let v := (List.range 64).foldl (turn block) hash
  ⟨v.a + hash.a, v.b + hash.b, v.c + hash.c, v.d + hash.d,
   v.e + hash.e, v.f + hash.f, v.g + hash.g, v.h + hash.h⟩

/-! ## Messages -/

theorem exists_zeros (length : Nat) : ∃ k, (length + 1 + k) % 64 = 56 :=
  ⟨(119 - length % 64) % 64, by omega⟩

/-- The fewest zero bytes that bring a message and its 0x80 to 56 bytes modulo 64. -/
def zeros (length : Nat) : Nat := Nat.find (exists_zeros length)

/-- The length in bits as a 64-bit number, most significant byte first. -/
def lengthField (length : Nat) : Bytes :=
  (List.range 8).map fun i => UInt8.ofNat (length * 8 / 256 ^ (7 - i))

def padded (message : Bytes) : Bytes :=
  message ++ [0x80] ++ List.replicate (zeros message.length) 0 ++ lengthField message.length

def blocks (s : Bytes) : List Bytes :=
  (List.range (s.length / 64)).map fun i => (s.drop (64 * i)).take 64

/-- A word's bytes, most significant first. -/
def bytesOf (w : Word) : Bytes :=
  [⟨w.extractLsb' 24 8⟩, ⟨w.extractLsb' 16 8⟩, ⟨w.extractLsb' 8 8⟩, ⟨w.extractLsb' 0 8⟩]

def Variables.bytes (v : Variables) : Bytes :=
  [v.a, v.b, v.c, v.d, v.e, v.f, v.g, v.h].flatMap bytesOf

def digest (message : Bytes) : Bytes :=
  ((blocks (padded message)).foldl compress initialHash).bytes

/-! ## Constants by trial division -/

def isPrime (n : Nat) : Bool := 2 ≤ n && (List.range n).all fun m => m < 2 || n % m ≠ 0

theorem isPrime_iff (n : Nat) : isPrime n = true ↔ n.Prime := by
  rw [Nat.prime_def_lt']
  simp only [isPrime, Bool.and_eq_true, decide_eq_true_eq, List.all_eq_true, List.mem_range,
    Bool.or_eq_true, Nat.dvd_iff_mod_eq_zero]
  grind

theorem primes_eq : primes = (List.range 312).filter isPrime := by
  refine List.filter_congr fun n _ => ?_
  rw [Bool.eq_iff_iff, isPrime_iff, decide_eq_true_eq]

/-! ## Padding -/

theorem zeros_eq (length : Nat) : zeros length = (119 - length % 64) % 64 := by
  rw [zeros, Nat.find_eq_iff]
  refine ⟨by omega, fun k hk => ?_⟩
  omega

/-! ## Splitting -/

/-- A text of at least one block starts with that block. -/
theorem blocks_of_le {s : Bytes} (h : 64 ≤ s.length) :
    blocks s = s.take 64 :: blocks (s.drop 64) := by
  obtain ⟨n, hn⟩ : ∃ n, s.length / 64 = n + 1 := ⟨s.length / 64 - 1, by omega⟩
  have hrest : (s.drop 64).length / 64 = n := by
    rw [List.length_drop]
    omega
  rw [blocks, blocks, hn, hrest, List.range_succ_eq_map, List.map_cons, List.map_map]
  congr 1
  refine List.map_congr_left fun i _ => ?_
  rw [Function.comp_apply, List.drop_drop, Nat.succ_eq_add_one, Nat.mul_add,
    Nat.mul_one, Nat.add_comm]

/-- Whole blocks are split off before what follows them. -/
theorem blocks_append {s : Bytes} (n : Nat) (hs : s.length = 64 * n) (t : Bytes) :
    blocks (s ++ t) = blocks s ++ blocks t := by
  induction n generalizing s with
  | zero =>
    obtain rfl := List.eq_nil_of_length_eq_zero hs
    rfl
  | succ n ih =>
    have hle : 64 ≤ s.length := by omega
    have hdrop : (s.drop 64).length = 64 * n := by
      rw [List.length_drop]
      omega
    have hall : 64 ≤ (s ++ t).length := by
      rw [List.length_append]
      omega
    rw [blocks_of_le hle, blocks_of_le hall, List.take_append_of_le_length hle,
      List.drop_append_of_le_length hle, ih hdrop, List.cons_append]

end ForgeOps.Sha2
