import Mathlib

namespace Leancrypto.Hqc

/-!
# HQC — arithmetic in GF(2^8) (`gf.c`): the code and the reduction

`gf.c` computes in GF(2^M), `M = 8`, on `uint16_t` values: a product is a carry-less
multiplication of the low bytes followed by a reduction modulo the primitive polynomial
`x^8 + x^4 + x^3 + x^2 + 1` (`0x11D`).  Everything is written without secret-dependent
branches or table lookups.

* `gfReduce` — `gf_reduce`: folds the part above `x^8` back down along the terms of the
  polynomial found by `trailing_zero_bits_count`, `⌈(deg_x - 7) / 4⌉` times;
* `gfCarrylessMul` — `gf_carryless_mul`: a 2-bit window over `a` selecting, in constant time,
  one of the four multiples of the low seven bits of `b`, and a masked correction for bit 7;
* `gfMul`, `gfSquare`, `gfInverse` — `gf_mul`, `gf_square` (spreading the bits) and
  `gf_inverse` (the addition chain to `a^254`).

The reference is GF(2)[X] on bit strings: `clmul` is the carry-less product and `GfCongr x y`
says that `x` and `y` differ by a multiple of the polynomial.

* `GfCongr.eq_of_lt` — two bytes congruent modulo `gfPoly` are equal;
* `gfReduceStep_congr`, `gfReduceStep_lt` — one pass keeps the residue and takes four bits off
  the degree, down to a byte, which it leaves alone;
* `gfReduce_lt_congr`, `gfReduce_spec` — **`gf_reduce` returns the remainder**: the one byte
  congruent to its input.

The products are in `Leancrypto.Hqc.GfMul`.
-/

/-! ### Parameters -/

/-- `LC_HQC_PARAM_M`.  Modelled from the spec: the HQC parameter header is not in the
    sources. -/
def paramM : Nat := 8

/-- `LC_HQC_PARAM_GF_POLY`: `x^8 + x^4 + x^3 + x^2 + 1`.  Modelled from the spec. -/
def gfPoly : Nat := 0x11D

/-- `LC_HQC_PARAM_GF_POLY_WT`: the number of terms of `gfPoly`.  Modelled from the spec. -/
def gfPolyWt : Nat := 5

/-- `LC_HQC_PARAM_GF_POLY_M2`: `M` minus the degree of the second term of `gfPoly`, the
    degree one reduction step removes.  Modelled from the spec. -/
def gfPolyM2 : Nat := 4

/-- `LC_HQC_CEIL_DIVIDE(a, b)`: `⌈a / b⌉`.  Modelled from the spec. -/
def ceilDivide (a b : Nat) : Nat := a / b + if a % b = 0 then 0 else 1

/-! ### `gf_reduce` -/

/-- `trailing_zero_bits_count(a)`: the number of trailing zero bits among the low 14 bits, the
    mask turning to zero at the first set bit. -/
def trailingZeroBitsCount (a : BitVec 16) : BitVec 16 :=
  ((List.range 14).foldl (fun (st : BitVec 16 × BitVec 16) i =>
    let bit : BitVec 16 := 1 - ((a >>> i) &&& 1)
    (st.1 + (bit &&& st.2), st.2 &&& -bit)) (0, 0xFFFF)).1

/-- One pass of the inner loop of `gf_reduce` on `(x, mod, z1, rmdr)`: the next term `x^z2` of
    the polynomial below the leading one is found as the lowest set bit of `rmdr`, `mod` is
    moved up to it and XORed into `x`, and the term is removed from `rmdr`. -/
def gfReduceInner (st : BitVec 64 × BitVec 64 × BitVec 16 × BitVec 16) (_ : Nat) :
    BitVec 64 × BitVec 64 × BitVec 16 × BitVec 16 :=
  let z2 := trailingZeroBitsCount st.2.2.2
  let mod := st.2.1 <<< (z2 - st.2.2.1).toNat
  (st.1 ^^^ mod, mod, z2, st.2.2.2 ^^^ BitVec.ofNat 16 (1 <<< z2.toNat))

/-- One pass of the outer loop of `gf_reduce`: `mod = x >> M; x &= (1 << M) - 1; x ^= mod`,
    then the `LC_HQC_PARAM_GF_POLY_WT - 2` inner passes from `rmdr = LC_HQC_PARAM_GF_POLY ^ 1`. -/
def gfReduceStep (x : BitVec 64) : BitVec 64 :=
  let mod := x >>> paramM
  ((List.range (gfPolyWt - 2)).foldl gfReduceInner
    ((x &&& BitVec.ofNat 64 (2 ^ paramM - 1)) ^^^ mod, mod, 0, BitVec.ofNat 16 (gfPoly ^^^ 1))).1

/-- `gf_reduce(x, deg_x)`: `steps = LC_HQC_CEIL_DIVIDE(deg_x - (M - 1), M2)` passes, the
    subtraction a `size_t` one, then the cast to `uint16_t`. -/
def gfReduce (x : BitVec 64) (degX : BitVec 64) : BitVec 16 :=
  (gfReduceStep^[ceilDivide (degX - BitVec.ofNat 64 (paramM - 1)).toNat gfPolyM2] x).setWidth 16

/-! ### Multiplication, squaring and inversion -/

/-- The constant-time lookup of `u[tmp1]`: `u[i]` masked by
    `0 - (1 - ((tmp2 | (0 - tmp2)) >> 31))`, `tmp2 = tmp1 - i`, XORed over `i < 4`. -/
def ctSelect (u : Nat → BitVec 16) (tmp1 : BitVec 32) : BitVec 16 :=
  (List.range 4).foldl (fun g i =>
    let tmp2 := tmp1 - BitVec.ofNat 32 i
    g ^^^ ((u i).setWidth 32 &&& (0 - (1 - ((tmp2 ||| (0 - tmp2)) >>> 31)))).setWidth 16) 0

/-- The table `u` of `gf_carryless_mul`: `u[0] = 0`, `u[1] = b & 0x7F`, `u[2] = u[1] << 1` and
    `u[3] = u[2] ^ u[1]`, the low seven bits of `b` times each 2-bit window. -/
def carrylessTable (b : BitVec 8) (i : Nat) : BitVec 16 :=
  let u1 : BitVec 16 := b.setWidth 16 &&& 0x7F
  match i with
  | 0 => 0
  | 1 => u1
  | 2 => u1 <<< 1
  | _ => (u1 <<< 1) ^^^ u1

/-- The window loop of `gf_carryless_mul`: `l = g` for the window at bit 0, then
    `l ^= g << i; h ^= g >> (8 - i)` for `i = 2, 4, 6`, `g` the constant-time lookup of
    `u[(a >> i) & 3]`.  Returns `(l, h)`. -/
def carrylessWindows (a b : BitVec 8) : BitVec 16 × BitVec 16 :=
  let u := carrylessTable b
  [2, 4, 6].foldl (fun (lh : BitVec 16 × BitVec 16) i =>
    let g := ctSelect u ((a >>> i &&& 3).setWidth 32)
    (lh.1 ^^^ (g <<< i), lh.2 ^^^ (g >>> (8 - i)))) (ctSelect u ((a &&& 3).setWidth 32), 0)

/-- `gf_carryless_mul(c, a, b)`: the window loop over the low seven bits of `b`, then bit 7 of
    `b` adds `a << 7` under a mask.  Returns `(c[0], c[1])`. -/
def gfCarrylessMul (a b : BitVec 8) : BitVec 8 × BitVec 8 :=
  let lh := carrylessWindows a b
  let mask : BitVec 16 := -((b >>> 7 &&& 1).setWidth 16)
  ((lh.1 ^^^ ((a.setWidth 16 <<< 7) &&& mask)).setWidth 8,
    (lh.2 ^^^ ((a.setWidth 16 >>> 1) &&& mask)).setWidth 8)

/-- `gf_mul(a, b)`: the carry-less product of the low bytes, `c[0] ^ (c[1] << 8)`, reduced as a
    polynomial of degree `2 (M - 1)`. -/
def gfMul (a b : BitVec 16) : BitVec 16 :=
  let c := gfCarrylessMul (a.setWidth 8) (b.setWidth 8)
  gfReduce ((c.1.setWidth 16 ^^^ (c.2.setWidth 16 <<< 8)).setWidth 64)
    (BitVec.ofNat 64 (2 * (paramM - 1)))

/-- `gf_square(a)`: `b <<= 1; s ^= b & (1 << 2 * i)` for `0 < i < M` from `s = a & 1`, which
    moves bit `i` of `a` to bit `2 i`, then the reduction. -/
def gfSquare (a : BitVec 16) : BitVec 16 :=
  let st := (List.range' 1 (paramM - 1)).foldl (fun (st : BitVec 32 × BitVec 32) i =>
      (st.1 <<< 1, st.2 ^^^ (st.1 <<< 1 &&& BitVec.ofNat 32 (1 <<< (2 * i)))))
    (a.setWidth 32, a.setWidth 32 &&& 1)
  gfReduce (st.2.setWidth 64) (BitVec.ofNat 64 (2 * (paramM - 1)))

/-- `gf_inverse(a)`: the addition chain `1 2 3 4 7 11 15 30 60 120 127 254`. -/
def gfInverse (a : BitVec 16) : BitVec 16 :=
  let inv := gfSquare a
  let tmp1 := gfMul inv a
  let inv := gfSquare inv
  let tmp2 := gfMul inv tmp1
  let tmp1 := gfMul inv tmp2
  let inv := gfMul tmp1 inv
  let inv := gfSquare (gfSquare (gfSquare inv))
  gfSquare (gfMul inv tmp2)

/-! ### GF(2)[X] on bit strings -/

/-- The carry-less product of the `w`-bit string `a` and `b`: the XOR of `b <<< i` over the set
    bits `i < w` of `a`, the product of the polynomials over GF(2) they stand for. -/
def clmul (w a b : Nat) : Nat :=
  (List.range w).foldl (fun acc i => if a.testBit i then acc ^^^ (b <<< i) else acc) 0

/-- `x` and `y` are congruent modulo `gfPoly`: they differ by a multiple of it. -/
def GfCongr (x y : Nat) : Prop := ∃ q, x ^^^ y = clmul 9 gfPoly q

/-- One pass of `gf_reduce` on numbers: the low byte, and the part `m` above it multiplied by
    `x^4 + x^3 + x^2 + 1`. -/
def reduceStepNat (z : Nat) : Nat :=
  z % 256 ^^^ z >>> 8 ^^^ z >>> 8 <<< 2 ^^^ z >>> 8 <<< 3 ^^^ z >>> 8 <<< 4

/-! ### Bit strings -/

theorem shiftLeft_xor_nat (x y n : Nat) : (x ^^^ y) <<< n = (x <<< n) ^^^ (y <<< n) := by
  apply Nat.eq_of_testBit_eq
  intro i
  simp only [Nat.testBit_shiftLeft, Nat.testBit_xor]
  cases decide (i ≥ n) <;> rfl

theorem shiftRight_xor_nat (x y n : Nat) : (x ^^^ y) >>> n = (x >>> n) ^^^ (y >>> n) := by
  apply Nat.eq_of_testBit_eq
  intro i
  simp only [Nat.testBit_shiftRight, Nat.testBit_xor]

theorem clmul_succ (w a b : Nat) :
    clmul (w + 1) a b = clmul w a b ^^^ if a.testBit w then b <<< w else 0 := by
  simp only [clmul, List.range_succ, List.foldl_append, List.foldl_cons, List.foldl_nil]
  split_ifs <;> simp

@[simp] theorem clmul_zero_width (a b : Nat) : clmul 0 a b = 0 := rfl

theorem clmul_xor_right (w a b c : Nat) : clmul w a (b ^^^ c) = clmul w a b ^^^ clmul w a c := by
  induction w with
  | zero => simp
  | succ w ih =>
    rw [clmul_succ, clmul_succ, clmul_succ, ih, shiftLeft_xor_nat]
    split_ifs <;> ac_rfl

theorem gfReduceStep_eq (x : BitVec 64) :
    gfReduceStep x = (x &&& 255#64) ^^^ x >>> 8 ^^^ x >>> 8 <<< 2 ^^^ x >>> 8 <<< 2 <<< 1 ^^^
      x >>> 8 <<< 2 <<< 1 <<< 1 := by
  simp only [gfReduceStep, gfReduceInner, List.range_succ, List.range_zero, List.nil_append,
    List.foldl_cons, List.foldl_nil, gfPolyWt, List.foldl_append]
  rfl

theorem clmul_gfPoly (q : Nat) :
    clmul 9 gfPoly q = q ^^^ q <<< 2 ^^^ q <<< 3 ^^^ q <<< 4 ^^^ q <<< 8 := by
  simp only [clmul_succ, clmul_zero_width]
  simp +decide [gfPoly]

/-! ### Congruence modulo `gfPoly` -/

theorem GfCongr.refl (x : Nat) : GfCongr x x :=
  ⟨0, by rw [Nat.xor_self, clmul_gfPoly]; rfl⟩

theorem GfCongr.symm {x y : Nat} (h : GfCongr x y) : GfCongr y x := by
  obtain ⟨q, hq⟩ := h
  exact ⟨q, by rw [Nat.xor_comm, hq]⟩

theorem GfCongr.trans {x y z : Nat} (h1 : GfCongr x y) (h2 : GfCongr y z) : GfCongr x z := by
  obtain ⟨q1, h1⟩ := h1
  obtain ⟨q2, h2⟩ := h2
  refine ⟨q1 ^^^ q2, ?_⟩
  rw [clmul_xor_right, ← h1, ← h2, Nat.xor_assoc, ← Nat.xor_assoc y, Nat.xor_self, Nat.zero_xor]

/-- A nonzero multiple of `gfPoly` has a set bit at `8` plus the top bit of the multiplier. -/
theorem clmul_gfPoly_ge {q : Nat} (hq : q ≠ 0) : 256 ≤ clmul 9 gfPoly q := by
  set t := q.log2
  have hlt : q < 2 ^ (t + 1) := Nat.lt_log2_self
  have hle : 2 ^ t ≤ q := Nat.log2_self_le hq
  have htop : q.testBit t = true := by
    rw [Nat.testBit_to_div_mod, Nat.div_eq_of_lt_le (show 1 * 2 ^ t ≤ q by omega)
      (by rw [pow_succ] at hlt; omega)]
    rfl
  have hz : ∀ j, t < j → q.testBit j = false := fun j hj =>
    Nat.testBit_eq_false_of_lt (lt_of_lt_of_le hlt (Nat.pow_le_pow_right (by decide) hj))
  have hbit : (clmul 9 gfPoly q).testBit (t + 8) = true := by
    rw [clmul_gfPoly]
    simp only [Nat.testBit_xor, Nat.testBit_shiftLeft, Nat.add_sub_cancel, htop,
      hz (t + 8 - 2) (by omega), hz (t + 8 - 3) (by omega), hz (t + 8 - 4) (by omega),
      hz (t + 8) (by omega)]
    simp
  exact le_trans (by rw [show 256 = 2 ^ 8 from rfl]; exact Nat.pow_le_pow_right (by decide) (by omega))
    (Nat.testBit_implies_ge hbit)

/-- **A byte has one remainder.**  Two bytes congruent modulo `gfPoly` are equal. -/
theorem GfCongr.eq_of_lt {r r' : Nat} (h : GfCongr r r') (hr : r < 256) (hr' : r' < 256) :
    r = r' := by
  obtain ⟨q, hq⟩ := h
  rcases eq_or_ne q 0 with rfl | hq0
  · simpa [clmul_gfPoly, Nat.xor_eq_zero] using hq
  · have : r ^^^ r' < 2 ^ 8 := Nat.xor_lt_two_pow hr hr'
    have := clmul_gfPoly_ge hq0
    omega

/-! ### `gf_reduce` is the remainder -/

/-- A bit string is its low `k` bits XOR the rest moved back up. -/
theorem mod_two_pow_xor_shiftRight_shiftLeft (x k : Nat) : x % 2 ^ k ^^^ x >>> k <<< k = x := by
  apply Nat.eq_of_testBit_eq
  intro i
  rw [Nat.testBit_xor, Nat.testBit_mod_two_pow, Nat.testBit_shiftLeft, Nat.testBit_shiftRight]
  by_cases hi : i < k
  · simp [hi, show ¬ i ≥ k by omega]
  · simp [hi, show i ≥ k by omega, show k + (i - k) = i by omega]

theorem toNat_gfReduceStep (x : BitVec 64) : (gfReduceStep x).toNat = reduceStepNat x.toNat := by
  have hm : x.toNat >>> 8 < 2 ^ 56 := by
    rw [Nat.shiftRight_eq_div_pow]; have := x.isLt; omega
  have hs : ∀ k ≤ 4, x.toNat >>> 8 <<< k < 2 ^ 64 := fun k hk => by
    rw [Nat.shiftLeft_eq]
    calc x.toNat >>> 8 * 2 ^ k < 2 ^ 56 * 2 ^ 4 :=
          Nat.mul_lt_mul_of_lt_of_le hm (Nat.pow_le_pow_right (by decide) hk) (by positivity)
      _ = 2 ^ 60 := by norm_num
      _ < 2 ^ 64 := by norm_num
  rw [gfReduceStep_eq, reduceStepNat]
  simp only [BitVec.toNat_xor, BitVec.toNat_and, BitVec.toNat_ushiftRight, BitVec.toNat_shiftLeft,
    Nat.mod_eq_of_lt (hs 2 (by omega)), ← Nat.shiftLeft_add, Nat.mod_eq_of_lt (hs 3 (by omega)),
    Nat.mod_eq_of_lt (hs 4 (by omega))]
  rw [show (255#64).toNat = 2 ^ 8 - 1 from rfl, Nat.and_pow_two_sub_one_eq_mod]

/-- One pass removes a multiple of `gfPoly`: the part above `x^8` times the polynomial. -/
theorem gfReduceStep_congr (x : BitVec 64) : GfCongr (gfReduceStep x).toNat x.toNat := by
  refine ⟨x.toNat >>> 8, ?_⟩
  have hx : x.toNat % 256 ^^^ x.toNat >>> 8 <<< 8 = x.toNat :=
    mod_two_pow_xor_shiftRight_shiftLeft _ 8
  rw [toNat_gfReduceStep, reduceStepNat, clmul_gfPoly]
  generalize x.toNat % 256 = l at hx ⊢
  generalize x.toNat >>> 8 = m at hx ⊢
  rw [← hx]
  calc _ = (l ^^^ l) ^^^ (m ^^^ m <<< 2 ^^^ m <<< 3 ^^^ m <<< 4 ^^^ m <<< 8) := by ac_rfl
    _ = _ := by rw [Nat.xor_self, Nat.zero_xor]

/-- One pass takes a value below `2^e` below `2^(max 8 (e - 4))`. -/
theorem gfReduceStep_lt {x : BitVec 64} {e : Nat} (hx : x.toNat < 2 ^ e) :
    (gfReduceStep x).toNat < 2 ^ max 8 (e - 4) := by
  have hB : 2 ^ e ≤ 2 ^ max 8 (e - 4) * 2 ^ 4 := by
    rw [← pow_add]; exact Nat.pow_le_pow_right (by decide) (by omega)
  have h8 : 2 ^ 8 ≤ 2 ^ max 8 (e - 4) := Nat.pow_le_pow_right (by decide) (by omega)
  have hm : ∀ k ≤ 4, x.toNat >>> 8 <<< k < 2 ^ max 8 (e - 4) := fun k hk => by
    have : 2 ^ k ≤ 2 ^ 4 := Nat.pow_le_pow_right (by decide) hk
    rw [Nat.shiftLeft_eq, Nat.shiftRight_eq_div_pow]
    calc x.toNat / 2 ^ 8 * 2 ^ k ≤ x.toNat / 2 ^ 8 * 2 ^ 4 := Nat.mul_le_mul_left _ this
      _ < 2 ^ max 8 (e - 4) := by omega
  rw [toNat_gfReduceStep, reduceStepNat]
  refine Nat.xor_lt_two_pow (Nat.xor_lt_two_pow (Nat.xor_lt_two_pow (Nat.xor_lt_two_pow
    (by omega) (hm 0 (by omega))) (hm 2 (by omega))) (hm 3 (by omega))) (hm 4 (by omega))

/-- A byte is already reduced. -/
theorem gfReduceStep_of_lt {x : BitVec 64} (hx : x.toNat < 256) : gfReduceStep x = x := by
  apply BitVec.eq_of_toNat_eq
  have : x.toNat >>> 8 = 0 := by rw [Nat.shiftRight_eq_div_pow]; omega
  rw [toNat_gfReduceStep, reduceStepNat, this, Nat.mod_eq_of_lt hx]
  simp

theorem gfReduceStep_iterate (x : BitVec 64) (k : Nat) {e : Nat} (hx : x.toNat < 2 ^ e) :
    (gfReduceStep^[k] x).toNat < 2 ^ max 8 (e - 4 * k) ∧ GfCongr (gfReduceStep^[k] x).toNat x.toNat := by
  induction k with
  | zero => exact ⟨lt_of_lt_of_le hx (Nat.pow_le_pow_right (by decide) (by omega)), GfCongr.refl _⟩
  | succ k ih =>
    rw [Function.iterate_succ_apply']
    refine ⟨lt_of_lt_of_le (gfReduceStep_lt ih.1) (Nat.pow_le_pow_right (by decide) (by omega)),
      (gfReduceStep_congr _).trans ih.2⟩

/-- A byte congruent to `x` is the only byte congruent to `x`. -/
theorem GfCongr.unique_of_lt {y x : Nat} (hy : y < 256) (hc : GfCongr y x) :
    ∀ r < 256, GfCongr r x ↔ r = y :=
  fun _ hr => ⟨fun h => (h.trans hc.symm).eq_of_lt hr hy, by rintro rfl; exact hc⟩

/-- `gf_reduce` returns a byte congruent to its input.  When `deg_x < M - 1` the `size_t`
    subtraction wraps and the pass count is huge, but every pass leaves a byte alone. -/
theorem gfReduce_lt_congr {x degX : BitVec 64} (hx : x.toNat < 2 ^ (degX.toNat + 1)) :
    (gfReduce x degX).toNat < 256 ∧ GfCongr (gfReduce x degX).toNat x.toNat := by
  set k := ceilDivide (degX - BitVec.ofNat 64 (paramM - 1)).toNat gfPolyM2
  have hlt : (gfReduceStep^[k] x).toNat < 256 := by
    by_cases hd : 7 ≤ degX.toNat
    · have hk : degX.toNat - 7 ≤ 4 * k := by
        simp only [k, ceilDivide, gfPolyM2, paramM, BitVec.toNat_sub, BitVec.toNat_ofNat]
        split_ifs <;> omega
      have := (gfReduceStep_iterate x k hx).1
      rwa [show max 8 (degX.toNat + 1 - 4 * k) = 8 by omega] at this
    · have hx8 : x.toNat < 2 ^ 8 := lt_of_lt_of_le hx (Nat.pow_le_pow_right (by decide) (by omega))
      rwa [Function.iterate_fixed (gfReduceStep_of_lt hx8)]
  have hr : (gfReduce x degX).toNat = (gfReduceStep^[k] x).toNat := by
    simp only [gfReduce, BitVec.toNat_setWidth]
    exact Nat.mod_eq_of_lt (lt_trans hlt (by decide))
  rw [hr]
  exact ⟨hlt, (gfReduceStep_iterate x k hx).2⟩

/-- **`gf_reduce` returns the remainder.**  For `x` of degree at most `deg_x`, the result is a
    byte, and it is the only byte congruent to `x` modulo `gfPoly`. -/
theorem gfReduce_spec (x degX : BitVec 64) (hx : x.toNat < 2 ^ (degX.toNat + 1)) :
    (gfReduce x degX).toNat < 256 ∧
      ∀ r < 256, GfCongr r x.toNat ↔ r = (gfReduce x degX).toNat :=
  ⟨(gfReduce_lt_congr hx).1, GfCongr.unique_of_lt (gfReduce_lt_congr hx).1 (gfReduce_lt_congr hx).2⟩

theorem gfReduce_spec_x8 :
    (BitVec.ofNat 64 0x100).toNat < 2 ^ ((BitVec.ofNat 64 8).toNat + 1) ∧
      (gfReduce (BitVec.ofNat 64 0x100) (BitVec.ofNat 64 8)).toNat < 256 ∧
      ∀ r < 256, GfCongr r (BitVec.ofNat 64 0x100).toNat ↔
        r = (gfReduce (BitVec.ofNat 64 0x100) (BitVec.ofNat 64 8)).toNat :=
  ⟨by decide, gfReduce_spec _ _ (by decide)⟩

end Leancrypto.Hqc
