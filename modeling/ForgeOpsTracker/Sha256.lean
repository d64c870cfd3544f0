import ForgeOpsTracker.Lib.Bytes

/-! The SHA-256 of `strict_privacy.c`. -/

namespace ForgeOps.Sha256

def sha256K : List UInt32 :=
  [0x428a2f98, 0x71374491, 0xb5c0fbcf, 0xe9b5dba5, 0x3956c25b, 0x59f111f1, 0x923f82a4, 0xab1c5ed5,
   0xd807aa98, 0x12835b01, 0x243185be, 0x550c7dc3, 0x72be5d74, 0x80deb1fe, 0x9bdc06a7, 0xc19bf174,
   0xe49b69c1, 0xefbe4786, 0x0fc19dc6, 0x240ca1cc, 0x2de92c6f, 0x4a7484aa, 0x5cb0a9dc, 0x76f988da,
   0x983e5152, 0xa831c66d, 0xb00327c8, 0xbf597fc7, 0xc6e00bf3, 0xd5a79147, 0x06ca6351, 0x14292967,
   0x27b70a85, 0x2e1b2138, 0x4d2c6dfc, 0x53380d13, 0x650a7354, 0x766a0abb, 0x81c2c92e, 0x92722c85,
   0xa2bfe8a1, 0xa81a664b, 0xc24b8b70, 0xc76c51a3, 0xd192e819, 0xd6990624, 0xf40e3585, 0x106aa070,
   0x19a4c116, 0x1e376c08, 0x2748774c, 0x34b0bcb5, 0x391c0cb3, 0x4ed8aa4a, 0x5b9cca4f, 0x682e6ff3,
   0x748f82ee, 0x78a5636f, 0x84c87814, 0x8cc70208, 0x90befffa, 0xa4506ceb, 0xbef9a3f7, 0xc67178f2]

structure Words where
  a : UInt32
  b : UInt32
  c : UInt32
  d : UInt32
  e : UInt32
  f : UInt32
  g : UInt32
  h : UInt32
  deriving DecidableEq, Repr

def rotr (x : UInt32) (n : UInt32) : UInt32 := (x >>> n) ||| (x <<< (32 - n))

/-- Four bytes, most significant first. -/
def bigEndian : Bytes → List UInt32
  | a :: b :: c :: d :: rest =>
    ((a.toUInt32 <<< 24) ||| (b.toUInt32 <<< 16) ||| (c.toUInt32 <<< 8) ||| d.toUInt32) ::
      bigEndian rest
  | _ => []

/-- The words `w[16]` to `w[16 + n - 1]` put behind the ones there are. -/
def expand : Nat → List UInt32 → List UInt32
  | 0, w => w
  | n + 1, w =>
    let i := w.length
    let w15 := w.getD (i - 15) 0
    let w2 := w.getD (i - 2) 0
    let s0 := rotr w15 7 ^^^ rotr w15 18 ^^^ (w15 >>> 3)
    let s1 := rotr w2 17 ^^^ rotr w2 19 ^^^ (w2 >>> 10)
    expand n (w ++ [w.getD (i - 16) 0 + s0 + w.getD (i - 7) 0 + s1])

def round (s : Words) (k w : UInt32) : Words :=
  let t1 := s.h + (rotr s.e 6 ^^^ rotr s.e 11 ^^^ rotr s.e 25) +
    ((s.e &&& s.f) ^^^ (~~~s.e &&& s.g)) + k + w
  let t2 := (rotr s.a 2 ^^^ rotr s.a 13 ^^^ rotr s.a 22) +
    ((s.a &&& s.b) ^^^ (s.a &&& s.c) ^^^ (s.b &&& s.c))
  ⟨t1 + t2, s.a, s.b, s.c, s.d + t1, s.e, s.f, s.g⟩

/-- `sha256_block` -/
def sha256Block (state : Words) (block : Bytes) : Words :=
  let w := expand 48 (bigEndian (block.take 64))
  let s := (sha256K.zip w).foldl (fun s kw => round s kw.1 kw.2) state
  ⟨state.a + s.a, state.b + s.b, state.c + s.c, state.d + s.d,
   state.e + s.e, state.f + s.f, state.g + s.g, state.h + s.h⟩

def initialState : Words :=
  ⟨0x6a09e667, 0xbb67ae85, 0x3c6ef372, 0xa54ff53a, 0x510e527f, 0x9b05688c, 0x1f83d9ab, 0x5be0cd19⟩

/-- `n` blocks of `data`, from the front. -/
def compressBlocks : Nat → Words → Bytes → Words
  | 0, state, _ => state
  | n + 1, state, data => compressBlocks n (sha256Block state data) (data.drop 64)

/-- The 64-bit length, most significant byte first. -/
def lengthBytes (bits : UInt64) : Bytes :=
  [56, 48, 40, 32, 24, 16, 8, 0].map fun shift : UInt64 => (bits >>> shift).toUInt8

/-- The `tail` buffer: the rest of the data, a 0x80 byte, zeros and the bit length. -/
def tailOf (rest : Bytes) (length : Nat) : Bytes :=
  let tailLength := if rest.length + 9 ≤ 64 then 64 else 128
  rest ++ [0x80] ++ List.replicate (tailLength - 9 - rest.length) 0 ++
    lengthBytes (UInt64.ofNat (length * 8))

def wordBytes (w : UInt32) : Bytes :=
  [(w >>> 24).toUInt8, (w >>> 16).toUInt8, (w >>> 8).toUInt8, w.toUInt8]

def sha256 (data : Bytes) : Bytes :=
  let whole := data.length - data.length % 64
  let state := compressBlocks (whole / 64) initialState data
  let tail := tailOf (data.drop whole) data.length
  let s := compressBlocks (tail.length / 64) state tail
  [s.a, s.b, s.c, s.d, s.e, s.f, s.g, s.h].flatMap wordBytes

end ForgeOps.Sha256
