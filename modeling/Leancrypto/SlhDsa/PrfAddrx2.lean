import Mathlib
import Leancrypto.Keccak.State

namespace Leancrypto.SlhDsa

open Leancrypto.Keccak

/-!
# SLH-DSA — the two-way SHAKE256 PRF against the sponge

`prf_addrx2` (`armv8/sphincs_hash_shakex2_armv8.c`) computes
`PRF(pub_seed, sk_seed, addr) = SHAKE256(pub_seed || addr || sk_seed)` for two addresses at
once.  It does not call the sponge: it writes the padded single block into two interleaved
Keccak states by hand, lane by lane (`state[2k + j]` is lane `k` of instance `j`), permutes
both with a two-way Keccak-f and reads the first `LC_SPX_N` bytes of each.

* `prfAddrx2State`, `prfAddrx2` — the code, with `ptr_to_le64`, `le64_to_ptr` and the two
  two-way permutations modelled from the spec;
* `prfAddrx2State_lane` — lane `k` of either instance is the little-endian word at byte
  `8k` of the padded block `pub_seed || addr_j || sk_seed || 0x1f 0 … 0 0x80`;
* `prfAddrx2State_block` — so the hand-built state is the padded block XORed into the zero
  state;
* `prfAddrx2_shake256` — each output is the first `LC_SPX_N` bytes of SHAKE256 of its
  message, under either permutation back-end.
-/

/-! ### Bytes and lanes -/

/-- The little-endian value of a byte string. -/
def leNat : List UInt8 → Nat
  | [] => 0
  | b :: bs => b.toNat + 256 * leNat bs

/-- `ptr_to_le64(p)`: the little-endian `uint64_t` at byte `p` of a buffer.  Modelled from
    the spec: the helper is not in the sources. -/
def ptrToLe64 (buf : List UInt8) (p : Nat) : UInt64 :=
  UInt64.ofNat (leNat ((List.range 8).map fun t => buf.getD (p + t) 0))

/-- `le64_to_ptr(p, x)`: the eight little-endian bytes of `x`.  Modelled from the spec. -/
def le64ToPtr (x : UInt64) : List UInt8 :=
  (List.range 8).map fun t => (x >>> UInt64.ofNat (8 * t)).toUInt8

/-- `s.state[50]`: two interleaved Keccak states, lane `k` of instance `j` at `2k + j`. -/
abbrev LanesX2 := Nat → UInt64

/-- `s.state[2k] = x; s.state[2k + 1] = y`: lane `k` of both instances. -/
def setLanePair (s : LanesX2) (k : Nat) (x y : UInt64) : LanesX2 :=
  Function.update (Function.update s (2 * k) x) (2 * k + 1) y

/-- Instance `j` of the interleaved lanes, in the byte view `(uint8_t)(lane >> 8 * t)`. -/
def instanceBytes (s : LanesX2) (j : Nat) : KeccakState :=
  fun b => (s (2 * (b.val / 8) + j) >>> UInt64.ofNat (8 * (b.val % 8))).toUInt8

/-- Lane `k` of a byte view. -/
def laneOfBytes (A : KeccakState) (k : Nat) : UInt64 :=
  UInt64.ofNat (leNat ((List.range 8).map fun t => byteAt A (8 * k + t)))

/-- A two-way Keccak-f: `f` on each of the two interleaved states.  Modelled from the spec:
    `keccak_f1600x2_armce` and `KeccakF1600_StatePermutex2` are assembly outside the
    sources, and both are to compute this. -/
def keccakX2 (f : KeccakState → KeccakState) (s : LanesX2) : LanesX2 :=
  fun m => if m < 50 then laneOfBytes (f (instanceBytes s (m % 2))) (m / 2) else s m

/-! ### The code -/

/-- The state `prf_addrx2` builds for `LC_SPX_N = n`: `pub_seed` in lanes `0 .. n/8 - 1`,
    the four lanes `(addr[2i + 1] << 32) | addr[2i]` of each address, `sk_seed`, the SHAKE
    domain byte `0x1f` in lane `n/4 + 4` and the last pad bit `0x80 << 56` in lane 16. -/
def prfAddrx2State (n : Nat) (pubSeed skSeed : List UInt8) (addrx2 : Nat → UInt32) : LanesX2 :=
  let s : LanesX2 := fun _ => 0
  let s := (List.range (n / 8)).foldl (fun s i =>
    let x := ptrToLe64 pubSeed (8 * i)
    setLanePair s i x x) s
  let s := (List.range 4).foldl (fun s i =>
    setLanePair s (n / 8 + i)
      (((addrx2 (1 + 2 * i)).toUInt64 <<< 32) ||| (addrx2 (2 * i)).toUInt64)
      (((addrx2 (8 + 1 + 2 * i)).toUInt64 <<< 32) ||| (addrx2 (8 + 2 * i)).toUInt64)) s
  let s := (List.range (n / 8)).foldl (fun s i =>
    let x := ptrToLe64 skSeed (8 * i)
    setLanePair s (n / 8 + i + 4) x x) s
  let s := setLanePair s (n / 4 + 4) 0x1f 0x1f
  setLanePair s 16 ((0x80 : UInt64) <<< 56) ((0x80 : UInt64) <<< 56)

/-- `prf_addrx2`: the hand-built state, the permutation `f1600x2` when the SHA3 extension is
    available (`feat`) and `KeccakF1600_StatePermutex2` otherwise, then `le64_to_ptr` of the
    first `n / 8` lanes of each instance into `out0` and `out1`. -/
def prfAddrx2 (f1600x2 permutex2 : LanesX2 → LanesX2) (feat : Bool) (n : Nat)
    (pubSeed skSeed : List UInt8) (addrx2 : Nat → UInt32) : List UInt8 × List UInt8 :=
  let s := prfAddrx2State n pubSeed skSeed addrx2
  let s := if feat then f1600x2 s else permutex2 s
  ((List.range (n / 8)).flatMap fun i => le64ToPtr (s (2 * i)),
    (List.range (n / 8)).flatMap fun i => le64ToPtr (s (2 * i + 1)))

/-! ### The sponge it is compared with -/

/-- The 32 bytes of address `j` of `addrx2` as they lie in memory: words `8j .. 8j + 7`,
    each little-endian. -/
def addrBytes (addrx2 : Nat → UInt32) (j : Nat) : List UInt8 :=
  (List.range 32).map fun b => (addrx2 (8 * j + b / 4) >>> UInt32.ofNat (8 * (b % 4))).toUInt8

/-- The message of instance `j`: `pub_seed || addr_j || sk_seed`. -/
def prfMessage (pubSeed skSeed : List UInt8) (addrx2 : Nat → UInt32) (j : Nat) : List UInt8 :=
  pubSeed ++ addrBytes addrx2 j ++ skSeed

/-- The first `n` bytes of `SHAKE256(m)`, from the reference sponge with the permutation
    `f`. -/
def shake256 (f : KeccakState → KeccakState) (m : List UInt8) (n : Nat) : List UInt8 :=
  streamBytes f shake256Rate (spongeLanes f shake256Rate (fun _ => 0) 0x1f m) 0 n

/-- The message of instance `j` with its SHAKE padding: the one block the sponge absorbs. -/
def prfBlock (pubSeed skSeed : List UInt8) (addrx2 : Nat → UInt32) (j : Nat) : List UInt8 :=
  prfMessage pubSeed skSeed addrx2 j ++
    padBytes shake256Rate 0x1f ((prfMessage pubSeed skSeed addrx2 j).length % shake256Rate.val)

/-! ### Reading bytes back -/

theorem uint64_eq_iff {x y : UInt64} : x = y ↔ x.toNat = y.toNat :=
  ⟨congrArg _, UInt64.toNat.inj⟩

theorem uint8_eq_iff {x y : UInt8} : x = y ↔ x.toNat = y.toNat :=
  ⟨congrArg _, UInt8.toNat.inj⟩

theorem leNat_lt (L : List UInt8) : leNat L < 256 ^ L.length := by
  induction L with
  | nil => simp [leNat]
  | cons b bs ih =>
    have hb : b.toNat < 256 := b.toBitVec.isLt
    rw [leNat, List.length_cons, pow_succ]
    omega

theorem leNat_append (L₁ L₂ : List UInt8) :
    leNat (L₁ ++ L₂) = leNat L₁ + 256 ^ L₁.length * leNat L₂ := by
  induction L₁ with
  | nil => simp [leNat]
  | cons b bs ih => rw [List.cons_append, leNat, leNat, ih, List.length_cons, pow_succ]; ring

/-- Byte `t` of a little-endian value is byte `t` of the string. -/
theorem leNat_div_mod (L : List UInt8) (t : Nat) : leNat L / 256 ^ t % 256 = (L.getD t 0).toNat := by
  induction L generalizing t with
  | nil => simp [leNat]
  | cons b bs ih =>
    have hb : b.toNat < 256 := b.toBitVec.isLt
    cases t with
    | zero => simp only [leNat, pow_zero, Nat.div_one, List.getD_cons_zero]; omega
    | succ t =>
      rw [pow_succ', ← Nat.div_div_eq_div_mul, leNat, show (b.toNat + 256 * leNat bs) / 256 = leNat bs by omega,
        ih, List.getD_cons_succ]

/-- `(uint8_t)(x >> 8 * t)` is digit `t` of `x` in base 256. -/
theorem uint64_toNat_shiftRight (x y : UInt64) : (x >>> y).toNat = x.toNat >>> (y.toNat % 64) := by
  show (x.toBitVec >>> (y % 64).toBitVec).toNat = _
  simp [BitVec.ushiftRight_eq']
  rfl

theorem uint64_shift_toUInt8 (x : UInt64) {t : Nat} (ht : t < 8) :
    (x >>> UInt64.ofNat (8 * t)).toUInt8 = UInt8.ofNat (x.toNat / 256 ^ t) := by
  have hs : (UInt64.ofNat (8 * t)).toNat % 64 = 8 * t := by
    show 8 * t % 2 ^ 64 % 64 = 8 * t
    omega
  rw [uint8_eq_iff]
  show (x >>> UInt64.ofNat (8 * t)).toNat % 256 = (x.toNat / 256 ^ t) % 256
  rw [uint64_toNat_shiftRight, hs, Nat.shiftRight_eq_div_pow, pow_mul]
  rfl

/-- The bytes of a little-endian word of eight bytes are those bytes. -/
theorem ofNat_leNat_byte {L : List UInt8} (hL : L.length = 8) {t : Nat} (ht : t < 8) :
    (UInt64.ofNat (leNat L) >>> UInt64.ofNat (8 * t)).toUInt8 = L.getD t 0 := by
  have hlt := leNat_lt L
  rw [hL] at hlt
  rw [uint64_shift_toUInt8 _ ht, uint8_eq_iff]
  show (leNat L % 2 ^ 64 / 256 ^ t) % 256 = _
  rw [Nat.mod_eq_of_lt (show leNat L < 2 ^ 64 by simpa using hlt), leNat_div_mod]

theorem ptrToLe64_byte (buf : List UInt8) (p : Nat) {t : Nat} (ht : t < 8) :
    (ptrToLe64 buf p >>> UInt64.ofNat (8 * t)).toUInt8 = buf.getD (p + t) 0 := by
  rw [ptrToLe64, ofNat_leNat_byte (by simp) ht]
  simp [ht]

theorem laneOfBytes_byte (A : KeccakState) (k : Nat) {t : Nat} (ht : t < 8) :
    (laneOfBytes A k >>> UInt64.ofNat (8 * t)).toUInt8 = byteAt A (8 * k + t) := by
  rw [laneOfBytes, ofNat_leNat_byte (by simp) ht]
  simp [ht]

/-! ### The lanes the code writes -/

theorem setLanePair_apply (s : LanesX2) (k : Nat) (x y : UInt64) {k' j : Nat} (hj : j < 2) :
    setLanePair s k x y (2 * k' + j) = if k' = k then (if j = 0 then x else y) else s (2 * k' + j) := by
  unfold setLanePair
  simp only [Function.update_apply]
  split_ifs <;> first | rfl | omega

/-- A loop writing lane `b + i` of both instances for `i < m`. -/
theorem foldl_setLanePair {pos : Nat → Nat} {b : Nat} (hpos : ∀ i, pos i = b + i) (s : LanesX2)
    (x y : Nat → UInt64) {k j : Nat} (hj : j < 2) (m : Nat) :
    (List.range m).foldl (fun s i => setLanePair s (pos i) (x i) (y i)) s (2 * k + j) =
      if b ≤ k ∧ k < b + m then (if j = 0 then x (k - b) else y (k - b)) else s (2 * k + j) := by
  induction m with
  | zero => rw [List.range_zero, List.foldl_nil, if_neg (by omega)]
  | succ m ih =>
    rw [List.range_succ, List.foldl_append, List.foldl_cons, List.foldl_nil,
      setLanePair_apply _ _ _ _ hj, ih, hpos]
    by_cases hk : k = b + m
    · subst hk; simp
    · simp only [hk, if_false]
      split_ifs <;> first | rfl | omega

theorem ptrToLe64_append_left {xs ys : List UInt8} {p : Nat} (h : p + 8 ≤ xs.length) :
    ptrToLe64 (xs ++ ys) p = ptrToLe64 xs p := by
  unfold ptrToLe64
  congr 2
  refine List.map_congr_left fun t ht => ?_
  rw [List.mem_range] at ht
  rw [List.getD_append _ _ _ _ (by omega)]

theorem ptrToLe64_append_right {xs ys : List UInt8} {p : Nat} (h : xs.length ≤ p) :
    ptrToLe64 (xs ++ ys) p = ptrToLe64 ys (p - xs.length) := by
  unfold ptrToLe64
  congr 2
  refine List.map_congr_left fun t _ => ?_
  rw [List.getD_append_right _ _ _ _ (by omega), Nat.sub_add_comm h]

/-- The four bytes of a `uint32_t` in memory put back together. -/
theorem leNat_uint32_bytes (w : UInt32) :
    leNat ((List.range 4).map fun t => (w >>> UInt32.ofNat (8 * t)).toUInt8) = w.toNat := by
  have hw : w.toNat < 2 ^ 32 := w.toBitVec.isLt
  have hb : ∀ c, (w >>> UInt32.ofNat c).toUInt8.toNat = w.toNat / 2 ^ (c % 2 ^ 32 % 32) % 256 :=
    fun c => by
      show (w.toBitVec >>> (UInt32.ofNat c % 32).toBitVec).toNat % 256 = _
      simp [BitVec.ushiftRight_eq', Nat.shiftRight_eq_div_pow]
      rfl
  simp only [show List.range 4 = [0, 1, 2, 3] from rfl, List.map_cons, List.map_nil, leNat, hb]
  norm_num
  omega

theorem addrBytes_getD (addrx2 : Nat → UInt32) (j : Nat) {b : Nat} (hb : b < 32) :
    (addrBytes addrx2 j).getD b 0 = (addrx2 (8 * j + b / 4) >>> UInt32.ofNat (8 * (b % 4))).toUInt8 := by
  simp [addrBytes, hb]

theorem shiftLeft_or_eq_add (a : Nat) {b : Nat} (hb : b < 2 ^ 32) :
    a <<< 32 ||| b = b + 2 ^ 32 * a := by
  refine Nat.eq_of_testBit_eq fun j => ?_
  rw [Nat.testBit_or, Nat.testBit_shiftLeft, Nat.add_comm, Nat.testBit_mul_pow_two_add a hb]
  by_cases hj : j < 32
  · simp [hj]
  · have : b.testBit j = false :=
      Nat.testBit_lt_two_pow (lt_of_lt_of_le hb (Nat.pow_le_pow_right (by decide) (by omega)))
    simp [hj, this]; omega

/-- `((uint64_t)hi << 32) | (uint64_t)lo`. -/
theorem uint64_words_toNat (lo hi : UInt32) :
    ((hi.toUInt64 <<< 32) ||| lo.toUInt64).toNat = lo.toNat + 2 ^ 32 * hi.toNat := by
  have hl : lo.toNat < 2 ^ 32 := lo.toBitVec.isLt
  have hh : hi.toNat < 2 ^ 32 := hi.toBitVec.isLt
  have hs : (hi.toUInt64 <<< 32).toNat = hi.toNat <<< 32 := by
    show (hi.toUInt64.toBitVec <<< ((32 : UInt64) % 64).toBitVec).toNat = _
    simp only [BitVec.shiftLeft_eq', BitVec.toNat_shiftLeft]
    show hi.toNat <<< 32 % 2 ^ 64 = _
    rw [Nat.mod_eq_of_lt (by rw [Nat.shiftLeft_eq]; omega)]
  show (hi.toUInt64 <<< 32).toNat ||| lo.toNat = _
  rw [hs, shiftLeft_or_eq_add _ hl]

/-- Lane `i < 4` of an address: words `2i` and `2i + 1`, the second in the high half. -/
theorem ptrToLe64_addrBytes (addrx2 : Nat → UInt32) (j : Nat) {i : Nat} (hi : i < 4) :
    ptrToLe64 (addrBytes addrx2 j) (8 * i) =
      ((addrx2 (8 * j + 1 + 2 * i)).toUInt64 <<< 32) ||| (addrx2 (8 * j + 2 * i)).toUInt64 := by
  have hsplit : (List.range 8).map (fun t => (addrBytes addrx2 j).getD (8 * i + t) 0) =
      (List.range 4).map (fun t => (addrx2 (8 * j + 2 * i) >>> UInt32.ofNat (8 * t)).toUInt8) ++
      (List.range 4).map (fun t => (addrx2 (8 * j + 1 + 2 * i) >>> UInt32.ofNat (8 * t)).toUInt8) := by
    rw [show List.range 8 = List.range (4 + 4) from rfl, List.range_add, List.map_append,
      List.map_map]
    congr 1 <;> refine List.map_congr_left fun t ht => ?_ <;> rw [List.mem_range] at ht
    · rw [addrBytes_getD addrx2 j (show 8 * i + t < 32 by omega), show (8 * i + t) / 4 = 2 * i by omega,
        show (8 * i + t) % 4 = t by omega]
    · rw [Function.comp_apply, addrBytes_getD addrx2 j (show 8 * i + (4 + t) < 32 by omega),
        show (8 * i + (4 + t)) / 4 = 1 + 2 * i by omega,
        show (8 * i + (4 + t)) % 4 = t by omega, Nat.add_assoc]
  have h0 : (addrx2 (8 * j + 2 * i)).toNat < 2 ^ 32 := (addrx2 _).toBitVec.isLt
  have h1 : (addrx2 (8 * j + 1 + 2 * i)).toNat < 2 ^ 32 := (addrx2 _).toBitVec.isLt
  rw [uint64_eq_iff, ptrToLe64, hsplit, leNat_append, leNat_uint32_bytes, leNat_uint32_bytes,
    uint64_words_toNat, List.length_map, List.length_range]
  exact Nat.mod_eq_of_lt (by omega)

@[simp] theorem length_addrBytes (addrx2 : Nat → UInt32) (j : Nat) : (addrBytes addrx2 j).length = 32 := by
  simp [addrBytes]

theorem length_prfMessage {n : Nat} {pubSeed skSeed : List UInt8} (hp : pubSeed.length = n)
    (hs : skSeed.length = n) (addrx2 : Nat → UInt32) (j : Nat) :
    (prfMessage pubSeed skSeed addrx2 j).length = 2 * n + 32 := by
  simp [prfMessage, hp, hs]; omega

/-- The lanes of the padded block, region by region: `pub_seed`, the address, `sk_seed`, and
    the padding. -/
theorem ptrToLe64_prfBlock {n : Nat} (hn : n % 8 = 0) (hn' : n ≤ 32) {pubSeed skSeed : List UInt8}
    (hp : pubSeed.length = n) (hs : skSeed.length = n) (addrx2 : Nat → UInt32) (j k : Nat) :
    ptrToLe64 (prfBlock pubSeed skSeed addrx2 j) (8 * k) =
      if k < n / 8 then ptrToLe64 pubSeed (8 * k)
      else if k < n / 8 + 4 then ptrToLe64 (addrBytes addrx2 j) (8 * (k - n / 8))
      else if k < n / 4 + 4 then ptrToLe64 skSeed (8 * (k - (n / 8 + 4)))
      else ptrToLe64 (padBytes shake256Rate 0x1f (2 * n + 32)) (8 * k - (2 * n + 32)) := by
  have hm := length_prfMessage hp hs addrx2 j
  have hpa : (pubSeed ++ addrBytes addrx2 j).length = n + 32 := by simp [hp]
  rw [prfBlock, hm, Nat.mod_eq_of_lt (show 2 * n + 32 < shake256Rate.val by
    show 2 * n + 32 < 136; omega)]
  split_ifs with h1 h2 h3
  · rw [ptrToLe64_append_left (by omega), prfMessage, ptrToLe64_append_left (by omega),
      ptrToLe64_append_left (by omega)]
  · rw [ptrToLe64_append_left (by omega), prfMessage, ptrToLe64_append_left (by omega),
      ptrToLe64_append_right (by omega), hp, show 8 * k - n = 8 * (k - n / 8) by omega]
  · rw [ptrToLe64_append_left (by omega), prfMessage, ptrToLe64_append_right (by omega), hpa,
      show 8 * k - (n + 32) = 8 * (k - (n / 8 + 4)) by omega]
  · rw [ptrToLe64_append_right (by omega), hm]

/-- The SHAKE256 padding lanes of a message of `8 q0` bytes: `0x1f` in lane `q0`, the final
    bit `0x80 << 56` in lane 16, the last of the 136-byte block, and zero elsewhere. -/
theorem ptrToLe64_padBytes {q0 k : Nat} (hq0 : q0 < 16) (hk : q0 ≤ k) :
    ptrToLe64 (padBytes shake256Rate 0x1f (8 * q0)) (8 * k - 8 * q0) =
      if k = 16 then (0x80 : UInt64) <<< 56 else if k = q0 then 0x1f else 0 := by
  have hr : shake256Rate.val = 136 := rfl
  simp only [ptrToLe64, padBytes_getD shake256Rate 0x1f (show 8 * q0 + 2 ≤ shake256Rate.val by
    omega), hr, show List.range 8 = [0, 1, 2, 3, 4, 5, 6, 7] from rfl, List.map_cons, List.map_nil]
  obtain h | h | ⟨h16, h0⟩ : k = 16 ∨ k = q0 ∨ (k ≠ 16 ∧ k ≠ q0) := by omega
  all_goals simp (disch := omega) only [if_pos, if_neg]
  all_goals rfl

/-- **The hand-built lanes are the padded block.**  For `LC_SPX_N` of 16, 24 or 32 bytes and
    seeds of that length, lane `k` of instance `j` is the little-endian word at byte `8k` of
    `pub_seed || addr_j || sk_seed` with its SHAKE padding. -/
theorem prfAddrx2State_lane {n : Nat} (hn : n = 16 ∨ n = 24 ∨ n = 32) {pubSeed skSeed : List UInt8}
    (hp : pubSeed.length = n) (hs : skSeed.length = n) (addrx2 : Nat → UInt32) {j k : Nat}
    (hj : j < 2) (hk : k < 25) :
    prfAddrx2State n pubSeed skSeed addrx2 (2 * k + j) =
      ptrToLe64 (prfBlock pubSeed skSeed addrx2 j) (8 * k) := by
  simp only [prfAddrx2State, setLanePair_apply _ _ _ _ hj,
    foldl_setLanePair (fun i => (Nat.zero_add i).symm) _ _ _ hj,
    foldl_setLanePair (fun i => rfl) _ _ _ hj,
    foldl_setLanePair (fun i => Nat.add_right_comm _ i 4) _ _ _ hj]
  rw [ptrToLe64_prfBlock (by omega) (by omega) hp hs, show 2 * n + 32 = 8 * (n / 4 + 4) by omega]
  obtain h | h | h | h : k < n / 8 ∨ n / 8 ≤ k ∧ k < n / 8 + 4 ∨ n / 8 + 4 ≤ k ∧ k < n / 4 + 4 ∨
      n / 4 + 4 ≤ k := by omega
  · -- `pub_seed`
    simp (disch := omega) only [if_pos, if_neg, ite_self, Nat.sub_zero]
  · -- the address
    simp (disch := omega) only [if_pos, if_neg, ite_self, Nat.sub_zero]
    rw [ptrToLe64_addrBytes _ _ (by omega)]
    obtain rfl | rfl : j = 0 ∨ j = 1 := by omega
    all_goals simp
  · -- `sk_seed`
    simp (disch := omega) only [if_pos, if_neg, ite_self, Nat.sub_zero]
  · -- the padding
    simp (disch := omega) only [if_pos, if_neg, ite_self, Nat.sub_zero]
    rw [ptrToLe64_padBytes (by omega) h]

/-- **The hand-built state is the padded block XORed into the zero state**, byte for byte
    in either instance. -/
theorem prfAddrx2State_block {n : Nat} (hn : n = 16 ∨ n = 24 ∨ n = 32) {pubSeed skSeed : List UInt8}
    (hp : pubSeed.length = n) (hs : skSeed.length = n) (addrx2 : Nat → UInt32) {j : Nat}
    (hj : j < 2) :
    instanceBytes (prfAddrx2State n pubSeed skSeed addrx2) j =
      sha3FillStateBytes (fun _ => 0) 0 (prfBlock pubSeed skSeed addrx2 j) := by
  funext b
  have hb : b.val / 8 < 25 := by omega
  rw [instanceBytes, prfAddrx2State_lane hn hp hs addrx2 hj hb,
    ptrToLe64_byte _ _ (Nat.mod_lt _ (by decide)), Nat.div_add_mod, sha3FillStateBytes_apply]
  simp

/-! ### The outputs -/

theorem le64ToPtr_laneOfBytes (A : KeccakState) (k : Nat) :
    le64ToPtr (laneOfBytes A k) = (List.range 8).map fun t => byteAt A (8 * k + t) :=
  List.map_congr_left fun _ ht => laneOfBytes_byte A k (List.mem_range.1 ht)

theorem keccakX2_lane (f : KeccakState → KeccakState) (s : LanesX2) {i j : Nat} (hi : i < 25)
    (hj : j < 2) : keccakX2 f s (2 * i + j) = laneOfBytes (f (instanceBytes s j)) i := by
  rw [keccakX2, if_pos (by omega), show (2 * i + j) % 2 = j by omega,
    show (2 * i + j) / 2 = i by omega]

theorem flatMap_range_eight (g : Nat → UInt8) (m : Nat) :
    (List.range m).flatMap (fun i => (List.range 8).map fun t => g (8 * i + t)) =
      (List.range (8 * m)).map g := by
  induction m with
  | zero => rfl
  | succ m ih =>
    rw [List.range_succ, List.flatMap_append, ih, Nat.mul_succ, List.range_add, List.map_append,
      List.flatMap_singleton, List.map_map]
    rfl

/-- The bytes `le64_to_ptr` stores from the first `m` lanes of instance `j` after the two-way
    permutation: the first `8m` bytes of `f` of that instance. -/
theorem flatMap_keccakX2 (f : KeccakState → KeccakState) (s : LanesX2) {j m : Nat} (hj : j < 2)
    (hm : m ≤ 25) :
    (List.range m).flatMap (fun i => le64ToPtr (keccakX2 f s (2 * i + j))) =
      (List.range (8 * m)).map (byteAt (f (instanceBytes s j))) := by
  rw [← flatMap_range_eight]
  refine List.flatMap_congr fun i hi => ?_
  rw [keccakX2_lane f s (by simp at hi; omega) hj, le64ToPtr_laneOfBytes]

/-! ### The sponge side -/

theorem length_prfBlock {n : Nat} (hn : n ≤ 32) {pubSeed skSeed : List UInt8}
    (hp : pubSeed.length = n) (hs : skSeed.length = n) (addrx2 : Nat → UInt32) (j : Nat) :
    (prfBlock pubSeed skSeed addrx2 j).length = shake256Rate.val := by
  have hm := length_prfMessage hp hs addrx2 j
  simp only [prfBlock, List.length_append, hm, padBytes, shake256Rate]
  rw [Nat.mod_eq_of_lt (by omega), if_neg (by omega)]
  simp
  omega

/-- SHAKE256 of a message that fits in one block, up to `n ≤ 136` bytes: the first `n` bytes
    of `f` of its padded block. -/
theorem shake256_prfMessage {n : Nat} (hn : n ≤ 32) {pubSeed skSeed : List UInt8}
    (hp : pubSeed.length = n) (hs : skSeed.length = n) (addrx2 : Nat → UInt32) (j : Nat)
    (f : KeccakState → KeccakState) :
    shake256 f (prfMessage pubSeed skSeed addrx2 j) n =
      (List.range n).map (byteAt (f (sha3FillStateBytes (fun _ => 0) 0
        (prfBlock pubSeed skSeed addrx2 j)))) := by
  have hl := length_prfBlock hn hp hs addrx2 j
  have hS : spongeLanes f shake256Rate (fun _ => 0) 0x1f (prfMessage pubSeed skSeed addrx2 j) =
      f (sha3FillStateBytes (fun _ => 0) 0 (prfBlock pubSeed skSeed addrx2 j)) := by
    rw [spongeLanes, ← prfBlock, refAbsorb_of_eq f shake256Rate _ _ (by simpa [Absorbing.init] using hl)]
    rfl
  rw [shake256, streamBytes, hS]
  refine List.map_congr_left fun k hk => ?_
  have hk : k < 136 := by simp at hk; omega
  rw [spongeStream, Nat.zero_add, show k / shake256Rate.val = 0 from Nat.div_eq_of_lt hk,
    Nat.mod_eq_of_lt (show k < shake256Rate.val from hk)]
  rfl

/-- **`prf_addrx2` is SHAKE256 twice.**  For `LC_SPX_N` of 16, 24 or 32 bytes, seeds of that
    length and any two addresses, `out0` and `out1` are the first `n` bytes of
    `SHAKE256(pub_seed || addr_j || sk_seed)`, whichever two-way permutation runs, as long as
    each computes Keccak-f on both interleaved states. -/
theorem prfAddrx2_shake256 (f : KeccakState → KeccakState) {f1600x2 permutex2 : LanesX2 → LanesX2}
    (h1 : ∀ s, f1600x2 s = keccakX2 f s) (h2 : ∀ s, permutex2 s = keccakX2 f s) (feat : Bool)
    {n : Nat} (hn : n = 16 ∨ n = 24 ∨ n = 32) {pubSeed skSeed : List UInt8}
    (hp : pubSeed.length = n) (hs : skSeed.length = n) (addrx2 : Nat → UInt32) :
    prfAddrx2 f1600x2 permutex2 feat n pubSeed skSeed addrx2 =
      (shake256 f (prfMessage pubSeed skSeed addrx2 0) n,
        shake256 f (prfMessage pubSeed skSeed addrx2 1) n) := by
  have hperm : ∀ s, (if feat then f1600x2 s else permutex2 s) = keccakX2 f s := by
    intro s; cases feat <;> simp [h1, h2]
  have h8 : 8 * (n / 8) = n := by omega
  have hout : ∀ j < 2, (List.range (n / 8)).flatMap
      (fun i => le64ToPtr (keccakX2 f (prfAddrx2State n pubSeed skSeed addrx2) (2 * i + j))) =
        shake256 f (prfMessage pubSeed skSeed addrx2 j) n := fun j hj => by
    rw [flatMap_keccakX2 f _ hj (by omega), h8, prfAddrx2State_block hn hp hs addrx2 hj,
      shake256_prfMessage (by omega) hp hs]
  simp only [prfAddrx2, hperm]
  rw [← hout 0 (by decide), ← hout 1 (by decide)]
  rfl

theorem prfAddrx2_shake256_n16 :
    (List.replicate 16 (7 : UInt8)).length = 16 ∧ (List.replicate 16 (9 : UInt8)).length = 16 ∧
      prfAddrx2 (keccakX2 id) (keccakX2 id) true 16 (List.replicate 16 7) (List.replicate 16 9)
          UInt32.ofNat =
        (shake256 id (prfMessage (List.replicate 16 7) (List.replicate 16 9) UInt32.ofNat 0) 16,
          shake256 id (prfMessage (List.replicate 16 7) (List.replicate 16 9) UInt32.ofNat 1) 16) :=
  ⟨rfl, rfl, prfAddrx2_shake256 id (fun _ => rfl) (fun _ => rfl) true (Or.inl rfl)
    (List.length_replicate 16 7) (List.length_replicate 16 9) _⟩

end Leancrypto.SlhDsa
