import HistoryAnchor.Python.Text

/-! # SHA-256 and BLAKE2b

The two hash functions that the protocol takes from `hashlib`, on words below
`2 ^ 32` and `2 ^ 64`. Only the length of a digest is used in proofs.
-/

namespace Python

def ofBytesBE (bs : Bytes) : ℕ := bs.foldl (fun n b => 256 * n + b.toNat) 0

def toBytesBE : ℕ → ℕ → Bytes
  | 0, _ => []
  | k + 1, n => UInt8.ofNat (n / 256 ^ k % 256) :: toBytesBE k n

def toBytesLE : ℕ → ℕ → Bytes
  | 0, _ => []
  | k + 1, n => UInt8.ofNat (n % 256) :: toBytesLE k (n / 256)

def ofBytesLE : Bytes → ℕ
  | [] => 0
  | b :: bs => b.toNat + 256 * ofBytesLE bs

@[simp] theorem length_toBytesBE (k n : ℕ) : (toBytesBE k n).length = k := by
  induction k with
  | zero => rfl
  | succ k ih => rw [toBytesBE, List.length_cons, ih]

/-- Consecutive pieces of length `k`; `fuel` bounds their number. -/
def chunks (k : ℕ) : ℕ → Bytes → List Bytes
  | 0, _ => []
  | fuel + 1, bs => if bs.isEmpty then [] else bs.take k :: chunks k fuel (bs.drop k)

namespace Sha256

def rotr (x n : ℕ) : ℕ := (x >>> n ||| x <<< (32 - n)) % 0x100000000

def constants : List ℕ :=
  [0x428a2f98, 0x71374491, 0xb5c0fbcf, 0xe9b5dba5, 0x3956c25b, 0x59f111f1, 0x923f82a4, 0xab1c5ed5,
   0xd807aa98, 0x12835b01, 0x243185be, 0x550c7dc3, 0x72be5d74, 0x80deb1fe, 0x9bdc06a7, 0xc19bf174,
   0xe49b69c1, 0xefbe4786, 0x0fc19dc6, 0x240ca1cc, 0x2de92c6f, 0x4a7484aa, 0x5cb0a9dc, 0x76f988da,
   0x983e5152, 0xa831c66d, 0xb00327c8, 0xbf597fc7, 0xc6e00bf3, 0xd5a79147, 0x06ca6351, 0x14292967,
   0x27b70a85, 0x2e1b2138, 0x4d2c6dfc, 0x53380d13, 0x650a7354, 0x766a0abb, 0x81c2c92e, 0x92722c85,
   0xa2bfe8a1, 0xa81a664b, 0xc24b8b70, 0xc76c51a3, 0xd192e819, 0xd6990624, 0xf40e3585, 0x106aa070,
   0x19a4c116, 0x1e376c08, 0x2748774c, 0x34b0bcb5, 0x391c0cb3, 0x4ed8aa4a, 0x5b9cca4f, 0x682e6ff3,
   0x748f82ee, 0x78a5636f, 0x84c87814, 0x8cc70208, 0x90befffa, 0xa4506ceb, 0xbef9a3f7, 0xc67178f2]

structure State where
  (a b c d e f g h : ℕ)

def initial : State :=
  ⟨0x6a09e667, 0xbb67ae85, 0x3c6ef372, 0xa54ff53a, 0x510e527f, 0x9b05688c, 0x1f83d9ab, 0x5be0cd19⟩

/-- One round, with the sum of its constant and its schedule word. -/
def round (s : State) (kw : ℕ) : State :=
  let s1 := rotr s.e 6 ^^^ rotr s.e 11 ^^^ rotr s.e 25
  let ch := (s.e &&& s.f) ^^^ ((0xffffffff - s.e) &&& s.g)
  let t1 := s.h + s1 + ch + kw
  let s0 := rotr s.a 2 ^^^ rotr s.a 13 ^^^ rotr s.a 22
  let maj := (s.a &&& s.b) ^^^ (s.a &&& s.c) ^^^ (s.b &&& s.c)
  ⟨(t1 + (s0 + maj)) % 0x100000000, s.a, s.b, s.c, (s.d + t1) % 0x100000000, s.e, s.f, s.g⟩

/-- The rounds that are left, with the next sixteen words of the schedule. -/
def rounds : List ℕ → List ℕ → State → State
  | k :: ks, w :: ws, s =>
    let w1 := ws.getD 0 0
    let w14 := ws.getD 13 0
    let g0 := rotr w1 7 ^^^ rotr w1 18 ^^^ w1 >>> 3
    let g1 := rotr w14 17 ^^^ rotr w14 19 ^^^ w14 >>> 10
    rounds ks (ws ++ [(w + g0 + ws.getD 8 0 + g1) % 0x100000000]) (round s (k + w))
  | _, _, s => s

def compress (s : State) (block : Bytes) : State :=
  let r := rounds constants ((chunks 4 16 block).map ofBytesBE) s
  let add x y := (x + y) % 0x100000000
  ⟨add s.a r.a, add s.b r.b, add s.c r.c, add s.d r.d, add s.e r.e, add s.f r.f, add s.g r.g,
    add s.h r.h⟩

/-- The message with its padding, which makes whole blocks of 64 bytes. -/
def padded (data : Bytes) : Bytes :=
  data ++ 0x80 :: (List.replicate ((119 - data.length % 64) % 64) 0 ++
    toBytesBE 8 (8 * data.length % 0x10000000000000000))

def digest (s : State) : Bytes :=
  [s.a, s.b, s.c, s.d, s.e, s.f, s.g, s.h].flatMap (toBytesBE 4)

end Sha256

/-- `hashlib.sha256(data).digest()`. -/
def sha256 (data : Bytes) : Bytes :=
  let blocks := chunks 64 (data.length / 64 + 2) (Sha256.padded data)
  Sha256.digest (blocks.foldl Sha256.compress Sha256.initial)

@[simp] theorem length_sha256 (data : Bytes) : (sha256 data).length = 32 := by
  simp [sha256, Sha256.digest, List.flatMap_cons]

namespace Sha256

-- The kernel passes an argument on unevaluated, so the words of a schedule grow with every round.
-- Here each is computed before the rounds that are left, with the operations that the kernel has
-- for numbers.

def force {α : Type} (n : ℕ) (next : ℕ → α) : α :=
  match n with
  | 0 => next 0
  | m + 1 => next m.succ

@[simp] theorem force_eq {α : Type} (n : ℕ) (next : ℕ → α) : force n next = next n := by
  cases n <;> rfl

/-- What is left of the rounds, from sixteen words of the schedule and the working variables. -/
abbrev Rest := ℕ → ℕ → ℕ → ℕ → ℕ → ℕ → ℕ → ℕ → ℕ → ℕ → ℕ → ℕ → ℕ → ℕ → ℕ → ℕ →
  ℕ → ℕ → ℕ → ℕ → ℕ → ℕ → ℕ → ℕ → State

def rotrWord (x n : ℕ) : ℕ :=
  ((x.shiftRight n).lor (x.shiftLeft (Nat.sub 32 n))).mod 0x100000000

def roundWords (k : ℕ) (next : Rest) : Rest :=
  fun w0 w1 w2 w3 w4 w5 w6 w7 w8 w9 w10 w11 w12 w13 w14 w15 a b c d e f g h =>
    let s1 := ((rotrWord e 6).xor (rotrWord e 11)).xor (rotrWord e 25)
    let ch := (e.land f).xor ((Nat.sub 0xffffffff e).land g)
    let s0 := ((rotrWord a 2).xor (rotrWord a 13)).xor (rotrWord a 22)
    let maj := ((a.land b).xor (a.land c)).xor (b.land c)
    let g0 := ((rotrWord w1 7).xor (rotrWord w1 18)).xor (w1.shiftRight 3)
    let g1 := ((rotrWord w14 17).xor (rotrWord w14 19)).xor (w14.shiftRight 10)
    force (((h.add s1).add ch).add (k.add w0)) fun t1 =>
    force ((t1.add (s0.add maj)).mod 0x100000000) fun a' =>
    force ((d.add t1).mod 0x100000000) fun e' =>
    force ((((w0.add g0).add w9).add g1).mod 0x100000000) fun w16 =>
      next w1 w2 w3 w4 w5 w6 w7 w8 w9 w10 w11 w12 w13 w14 w15 w16 a' a b c e' e f g

def roundsWords (ks : List ℕ) : Rest :=
  ks.foldr roundWords fun _ _ _ _ _ _ _ _ _ _ _ _ _ _ _ _ a b c d e f g h =>
    ⟨a, b, c, d, e, f, g, h⟩

theorem rounds_eq_words (ks : List ℕ)
    (w0 w1 w2 w3 w4 w5 w6 w7 w8 w9 w10 w11 w12 w13 w14 w15 : ℕ) (s : State) :
    rounds ks [w0, w1, w2, w3, w4, w5, w6, w7, w8, w9, w10, w11, w12, w13, w14, w15] s =
      roundsWords ks w0 w1 w2 w3 w4 w5 w6 w7 w8 w9 w10 w11 w12 w13 w14 w15
        s.a s.b s.c s.d s.e s.f s.g s.h := by
  induction ks generalizing w0 w1 w2 w3 w4 w5 w6 w7 w8 w9 w10 w11 w12 w13 w14 w15 s with
  | nil => rfl
  | cons k ks ih =>
    rw [roundsWords, List.foldr_cons, ← roundsWords]
    simp only [roundWords, force_eq]
    exact ih ..

def compressWords (s : State) (ws : List ℕ) : State :=
  let r := match ws with
    | [w0, w1, w2, w3, w4, w5, w6, w7, w8, w9, w10, w11, w12, w13, w14, w15] =>
      roundsWords constants w0 w1 w2 w3 w4 w5 w6 w7 w8 w9 w10 w11 w12 w13 w14 w15
        s.a s.b s.c s.d s.e s.f s.g s.h
    | ws => rounds constants ws s
  let add x y := (x + y) % 0x100000000
  ⟨add s.a r.a, add s.b r.b, add s.c r.c, add s.d r.d, add s.e r.e, add s.f r.f, add s.g r.g,
    add s.h r.h⟩

theorem compress_eq_words (s : State) (block : Bytes) :
    compress s block = compressWords s ((chunks 4 16 block).map ofBytesBE) := by
  unfold compress compressWords
  split
  · next h => rw [h, rounds_eq_words]
  · rfl

end Sha256

def sha256Words (data : Bytes) : Bytes :=
  let blocks := chunks 64 (data.length / 64 + 2) (Sha256.padded data)
  let words := blocks.map fun block => (chunks 4 16 block).map ofBytesBE
  Sha256.digest (words.foldl Sha256.compressWords Sha256.initial)

theorem sha256_eq_words : sha256 = sha256Words := by
  funext data
  simp only [sha256, sha256Words, List.foldl_map, ← Sha256.compress_eq_words]

namespace Blake2b

def rotr (x n : ℕ) : ℕ := (x >>> n ||| x <<< (64 - n)) % 0x10000000000000000

def iv : List ℕ :=
  [0x6a09e667f3bcc908, 0xbb67ae8584caa73b, 0x3c6ef372fe94f82b, 0xa54ff53a5f1d36f1,
   0x510e527fade682d1, 0x9b05688c2b3e6c1f, 0x1f83d9abfb41bd6b, 0x5be0cd19137e2179]

def sigma : List (List ℕ) :=
  [[0, 1, 2, 3, 4, 5, 6, 7, 8, 9, 10, 11, 12, 13, 14, 15],
   [14, 10, 4, 8, 9, 15, 13, 6, 1, 12, 0, 2, 11, 7, 5, 3],
   [11, 8, 12, 0, 5, 2, 15, 13, 10, 14, 3, 6, 7, 1, 9, 4],
   [7, 9, 3, 1, 13, 12, 11, 14, 2, 6, 5, 10, 4, 0, 15, 8],
   [9, 0, 5, 7, 2, 4, 10, 15, 14, 1, 11, 12, 6, 8, 3, 13],
   [2, 12, 6, 10, 0, 11, 8, 3, 4, 13, 7, 5, 15, 14, 1, 9],
   [12, 5, 1, 15, 14, 13, 4, 10, 0, 7, 6, 3, 9, 2, 8, 11],
   [13, 11, 7, 14, 12, 1, 3, 9, 5, 0, 15, 4, 8, 6, 2, 10],
   [6, 15, 14, 9, 11, 3, 0, 8, 12, 2, 13, 7, 1, 4, 10, 5],
   [10, 2, 8, 4, 7, 6, 1, 5, 15, 11, 9, 14, 3, 12, 13, 0],
   [0, 1, 2, 3, 4, 5, 6, 7, 8, 9, 10, 11, 12, 13, 14, 15],
   [14, 10, 4, 8, 9, 15, 13, 6, 1, 12, 0, 2, 11, 7, 5, 3]]

def mix (v : List ℕ) (a b c d x y : ℕ) : List ℕ :=
  let va := (v.getD a 0 + v.getD b 0 + x) % 0x10000000000000000
  let vd := rotr (v.getD d 0 ^^^ va) 32
  let vc := (v.getD c 0 + vd) % 0x10000000000000000
  let vb := rotr (v.getD b 0 ^^^ vc) 24
  let va := (va + vb + y) % 0x10000000000000000
  let vd := rotr (vd ^^^ va) 16
  let vc := (vc + vd) % 0x10000000000000000
  let vb := rotr (vb ^^^ vc) 63
  (((v.set a va).set b vb).set c vc).set d vd

def round (m v s : List ℕ) : List ℕ :=
  let word i := m.getD (s.getD i 0) 0
  let v := mix v 0 4 8 12 (word 0) (word 1)
  let v := mix v 1 5 9 13 (word 2) (word 3)
  let v := mix v 2 6 10 14 (word 4) (word 5)
  let v := mix v 3 7 11 15 (word 6) (word 7)
  let v := mix v 0 5 10 15 (word 8) (word 9)
  let v := mix v 1 6 11 12 (word 10) (word 11)
  let v := mix v 2 7 8 13 (word 12) (word 13)
  mix v 3 4 9 14 (word 14) (word 15)

/-- Compress one block; `t` counts the bytes so far. -/
def compress (h : List ℕ) (block : Bytes) (t : ℕ) (last : Bool) : List ℕ :=
  let m := (chunks 8 16 (block ++ List.replicate (128 - block.length) 0)).map ofBytesLE
  let v := h ++ iv
  let v := v.set 12 (v.getD 12 0 ^^^ t % 0x10000000000000000)
  let v := v.set 13 (v.getD 13 0 ^^^ t / 0x10000000000000000)
  let v := if last then v.set 14 (0xffffffffffffffff - v.getD 14 0) else v
  let v := sigma.foldl (round m) v
  (List.range 8).map fun i => h.getD i 0 ^^^ v.getD i 0 ^^^ v.getD (i + 8) 0

def compressAll (h : List ℕ) (t : ℕ) : List Bytes → List ℕ
  | [] => compress h [] t true
  | [b] => compress h b (t + b.length) true
  | b :: bs => compressAll (compress h b (t + b.length) false) (t + b.length) bs

end Blake2b

/-- `hashlib.blake2b(data, digest_size=size).digest()`. -/
def blake2b (data : Bytes) (size : ℕ) : Bytes :=
  let h := Blake2b.iv.set 0 (Blake2b.iv.getD 0 0 ^^^ 0x01010000 ^^^ size)
  let out := Blake2b.compressAll h 0 (chunks 128 (data.length / 128 + 1) data)
  (out.flatMap (toBytesLE 8)).take size

end Python
