import Mathlib
import Leancrypto.Hqc.Gf

namespace Leancrypto.Hqc

/-!
# HQC — products in GF(2^8) (`gf.c`)

`gf_mul` multiplies the low bytes carry-lessly with `gf_carryless_mul` and reduces the
product; `gf_square` spreads the bits of its argument instead.

* `toNat_carrylessWindows` — the window loop computes the product by the low seven bits of `b`,
  split into its low byte and the rest;
* `toNat_gfCarrylessMul`, `gfCarrylessMul_eq_clmul` — **the windowed constant-time product is
  the carry-less product**;
* `gfMul_spec` — **`gf_mul` multiplies in GF(2)[X]/(0x11D)**: its result is the one byte
  congruent to the carry-less product of the low bytes;
* `clmul_self_succ` — squaring over GF(2) spreads the bits; so `gfSquare_eq_gfMul`:
  **`gf_square a` is `gf_mul a a`**;
* `gfMul_toNat` — `gf_mul` on numbers, with arithmetic only, for computing in the kernel.
-/

/-! ### References on numbers -/

/-- The square of the low `w` bits of `a` in GF(2)[X]: bit `i` moved to `2 i`. -/
def spread (w a : Nat) : Nat :=
  (List.range w).foldl (fun acc i => acc ^^^ if a.testBit i then 2 ^ (2 * i) else 0) 0

/-- The carry-less product of two bytes written out with arithmetic only: the term for bit `i`
    of `a` is `b << i` times that bit. -/
def clmulUnrolled (a b : Nat) : Nat :=
  b * (a % 2) ^^^ (b <<< 1) * (a >>> 1 % 2) ^^^ (b <<< 2) * (a >>> 2 % 2) ^^^
    (b <<< 3) * (a >>> 3 % 2) ^^^ (b <<< 4) * (a >>> 4 % 2) ^^^ (b <<< 5) * (a >>> 5 % 2) ^^^
    (b <<< 6) * (a >>> 6 % 2) ^^^ (b <<< 7) * (a >>> 7 % 2)

/-- `gf_mul` on numbers: the carry-less product of the low bytes and the two passes of the
    reduction. -/
def gfMulNat (x y : Nat) : Nat := reduceStepNat (reduceStepNat (clmulUnrolled (x % 256) (y % 256)))

/-! ### `gf_carryless_mul` is the carry-less product -/

/-- The mask of the lookup, `0 - (1 - ((tmp2 | (0 - tmp2)) >> 31))`: all ones for the wanted
    index and zero for the others. -/
theorem ctSelect_mask : ∀ t < 4, ∀ i < 4,
    (0 - (1 - ((BitVec.ofNat 32 t - BitVec.ofNat 32 i |||
      (0 - (BitVec.ofNat 32 t - BitVec.ofNat 32 i))) >>> 31)) : BitVec 32) =
        if t = i then BitVec.allOnes 32 else 0 := by
  decide

theorem ctSelect_eq (u : Nat → BitVec 16) {t : BitVec 32} (ht : t.toNat < 4) :
    ctSelect u t = u t.toNat := by
  obtain ⟨n, hn, rfl⟩ : ∃ n < 4, t = BitVec.ofNat 32 n := ⟨t.toNat, ht, by simp⟩
  simp (disch := decide) only [ctSelect, List.range_succ, List.range_zero, List.nil_append,
    List.foldl_append, List.foldl_cons, List.foldl_nil, ctSelect_mask n hn]
  interval_cases n <;> simp <;> exact BitVec.and_allOnes

@[simp] theorem clmul_zero_right (w a : Nat) : clmul w a 0 = 0 := by
  simpa using clmul_xor_right w a 0 0

/-- A product with a factor below `2^n` stays below `2^(n + w - 1)`. -/
theorem clmul_lt {w a b n : Nat} (hb : b < 2 ^ n) : clmul w a b < 2 ^ (n + w - 1) := by
  induction w with
  | zero => exact Nat.two_pow_pos _
  | succ w ih =>
    rw [clmul_succ]
    refine Nat.xor_lt_two_pow (lt_of_lt_of_le ih (Nat.pow_le_pow_right (by decide) (by omega))) ?_
    split_ifs
    · rw [Nat.shiftLeft_eq, show n + (w + 1) - 1 = n + w by omega, pow_add]
      exact Nat.mul_lt_mul_of_pos_right hb (Nat.two_pow_pos w)
    · exact Nat.two_pow_pos _

theorem clmul_shiftLeft (w a b k : Nat) : clmul w a (b <<< k) = clmul w a b <<< k := by
  induction w with
  | zero => simp
  | succ w ih =>
    rw [clmul_succ, clmul_succ, ih, shiftLeft_xor_nat]
    split_ifs
    · rw [← Nat.shiftLeft_add, ← Nat.shiftLeft_add, Nat.add_comm]
    · simp

theorem clmul_one (w a : Nat) : clmul w a 1 = a % 2 ^ w := by
  induction w with
  | zero => simp [Nat.mod_one]
  | succ w ih =>
    apply Nat.eq_of_testBit_eq
    intro i
    rw [clmul_succ, ih, Nat.testBit_xor, Nat.testBit_mod_two_pow, Nat.testBit_mod_two_pow]
    rcases lt_trichotomy i w with h | rfl | h
    · split_ifs <;> simp [h, Nat.testBit_shiftLeft, show i < w + 1 by omega, show ¬ w ≤ i by omega]
    · split_ifs <;> simp_all [Nat.testBit_shiftLeft]
    · have : Nat.testBit 1 (i - w) = false :=
        Nat.testBit_eq_false_of_lt (Nat.one_lt_two_pow (by omega))
      split_ifs <;> simp [Nat.testBit_shiftLeft, show ¬ i < w by omega, show ¬ i < w + 1 by omega,
        show w ≤ i by omega, this]

/-- Two more bits of `a` add the product of their window, moved up. -/
theorem clmul_add_two (w a b : Nat) :
    clmul (w + 2) a b = clmul w a b ^^^ clmul 2 (a >>> w % 4) b <<< w := by
  have h0 : (a >>> w % 4).testBit 0 = a.testBit w := by
    rw [show (4 : Nat) = 2 ^ 2 from rfl, Nat.testBit_mod_two_pow, Nat.testBit_shiftRight]; simp
  have h1 : (a >>> w % 4).testBit 1 = a.testBit (w + 1) := by
    rw [show (4 : Nat) = 2 ^ 2 from rfl, Nat.testBit_mod_two_pow, Nat.testBit_shiftRight]; simp
  simp only [clmul_succ, clmul_zero_width, h0, h1, Nat.xor_assoc]
  split_ifs <;> simp [shiftLeft_xor_nat, ← Nat.shiftLeft_add, Nat.add_comm]

theorem shiftLeft_shiftRight_of_le (x : Nat) {i k : Nat} (h : i ≤ k) :
    x <<< i >>> k = x >>> (k - i) := by
  rw [show k = i + (k - i) by omega, Nat.shiftRight_add, Nat.shiftLeft_shiftRight,
    Nat.add_sub_cancel_left]

theorem toNat_carrylessTable (b : BitVec 8) {d : Nat} (hd : d < 4) :
    (carrylessTable b d).toNat = clmul 2 d (b.toNat % 128) := by
  have h1 : (b.setWidth 16 &&& 0x7F#16).toNat = b.toNat % 128 := by
    rw [BitVec.toNat_and, BitVec.toNat_setWidth, Nat.mod_eq_of_lt (by omega)]
    exact Nat.and_pow_two_sub_one_eq_mod _ 7
  have h2 : (b.toNat % 128) <<< 1 < 65536 := by rw [Nat.shiftLeft_eq]; omega
  interval_cases d <;> simp +decide [carrylessTable, clmul_succ, BitVec.toNat_xor,
    BitVec.toNat_shiftLeft, h1, h2, Nat.mod_eq_of_lt h2, Nat.xor_comm]

theorem toNat_ctSelect_window (a b : BitVec 8) (i : Nat) :
    (ctSelect (carrylessTable b) ((a >>> i &&& 3).setWidth 32)).toNat =
      clmul 2 (a.toNat >>> i % 4) (b.toNat % 128) := by
  have ht : ((a >>> i &&& 3).setWidth 32).toNat = a.toNat >>> i % 4 := by
    rw [BitVec.toNat_setWidth, BitVec.toNat_and, BitVec.toNat_ushiftRight]
    rw [show BitVec.toNat (3 : BitVec 8) = 2 ^ 2 - 1 from rfl, Nat.and_pow_two_sub_one_eq_mod]
    exact Nat.mod_eq_of_lt (by omega)
  rw [ctSelect_eq _ (by omega), ht, toNat_carrylessTable _ (by omega)]

theorem toNat_carrylessWindows (a b : BitVec 8) :
    (carrylessWindows a b).1.toNat = clmul 8 a.toNat (b.toNat % 128) ∧
      (carrylessWindows a b).2.toNat = clmul 8 a.toNat (b.toNat % 128) >>> 8 := by
  set G : Nat → Nat := fun i => clmul 2 (a.toNat >>> i % 4) (b.toNat % 128)
  have hG : ∀ i, G i < 2 ^ 8 := fun i => clmul_lt (n := 7) (by omega)
  have hs : ∀ i ≤ 6, G i <<< i % 2 ^ 16 = G i <<< i := fun i hi => Nat.mod_eq_of_lt (by
    rw [Nat.shiftLeft_eq]
    calc G i * 2 ^ i < 2 ^ 8 * 2 ^ 6 :=
          Nat.mul_lt_mul_of_lt_of_le (hG i) (Nat.pow_le_pow_right (by decide) hi) (by positivity)
      _ ≤ 2 ^ 16 := by norm_num)
  have hP : clmul 8 a.toNat (b.toNat % 128) = G 0 ^^^ G 2 <<< 2 ^^^ G 4 <<< 4 ^^^ G 6 <<< 6 := by
    show clmul (0 + 2 + 2 + 2 + 2) a.toNat (b.toNat % 128) = _
    rw [clmul_add_two, clmul_add_two, clmul_add_two, clmul_add_two]
    simp [G]
  have h0 : a &&& (3 : BitVec 8) = a >>> 0 &&& 3 := by simp
  have hG0 : G 0 >>> 8 = 0 := by rw [Nat.shiftRight_eq_div_pow]; exact Nat.div_eq_of_lt (hG 0)
  simp only [carrylessWindows, List.foldl_cons, List.foldl_nil, BitVec.toNat_xor,
    BitVec.toNat_shiftLeft, BitVec.toNat_ushiftRight, h0, toNat_ctSelect_window]
  refine ⟨?_, ?_⟩
  · show G 0 ^^^ G 2 <<< 2 % 2 ^ 16 ^^^ G 4 <<< 4 % 2 ^ 16 ^^^ G 6 <<< 6 % 2 ^ 16 = _
    rw [hs 2 (by omega), hs 4 (by omega), hs 6 (by omega), hP]
  · show 0 ^^^ G 2 >>> (8 - 2) ^^^ G 4 >>> (8 - 4) ^^^ G 6 >>> (8 - 6) = _
    rw [hP, shiftRight_xor_nat, shiftRight_xor_nat, shiftRight_xor_nat, hG0,
      shiftLeft_shiftRight_of_le _ (by omega), shiftLeft_shiftRight_of_le _ (by omega),
      shiftLeft_shiftRight_of_le _ (by omega)]

/-- The constant-time lookups of the 2-bit windows and the masked bit 7 give the low and the high
    byte of `a * b` in GF(2)[X]. -/
theorem toNat_gfCarrylessMul (a b : BitVec 8) :
    (gfCarrylessMul a b).1.toNat = clmul 8 a.toNat b.toNat % 256 ∧
      (gfCarrylessMul a b).2.toNat = clmul 8 a.toNat b.toNat >>> 8 := by
  obtain ⟨hl, hh⟩ := toNat_carrylessWindows a b
  have h7 : clmul 8 a.toNat (b.toNat % 128) < 2 ^ 14 := clmul_lt (n := 7) (by omega)
  have hP : clmul 8 a.toNat b.toNat =
      clmul 8 a.toNat (b.toNat % 128) ^^^ clmul 8 a.toNat (b.toNat >>> 7) <<< 7 := by
    have hb : b.toNat % 128 ^^^ b.toNat >>> 7 <<< 7 = b.toNat :=
      mod_two_pow_xor_shiftRight_shiftLeft _ 7
    conv_lhs => rw [← hb]
    rw [clmul_xor_right, clmul_shiftLeft]
  have hmask : (b >>> 7 &&& 1).setWidth 16 = BitVec.ofNat 16 (b.toNat >>> 7) := by
    apply BitVec.eq_of_toNat_eq
    simp [Nat.shiftRight_eq_div_pow]
    omega
  simp only [gfCarrylessMul, BitVec.toNat_setWidth, BitVec.toNat_xor, BitVec.toNat_and, hl, hh,
    hmask, hP]
  rcases (show b.toNat >>> 7 = 0 ∨ b.toNat >>> 7 = 1 by rw [Nat.shiftRight_eq_div_pow]; omega)
    with h | h
  · rw [h]
    simp
    rw [Nat.shiftRight_eq_div_pow]
    omega
  · rw [h, clmul_one]
    simp
    have hA : a.toNat < 256 := a.isLt
    have hp8 : clmul 8 a.toNat (b.toNat % 128) >>> 8 < 2 ^ 7 := by
      rw [Nat.shiftRight_eq_div_pow]; omega
    have hA1 : a.toNat >>> 1 < 2 ^ 7 := by rw [Nat.shiftRight_eq_div_pow]; omega
    have hA7 : a.toNat <<< 7 < 65536 := by rw [Nat.shiftLeft_eq]; omega
    have hand : ∀ x < 65536, x &&& 65535 = x := fun x hx => by
      rw [show 65535 = 2 ^ 16 - 1 from rfl, Nat.and_pow_two_sub_one_eq_mod]; exact Nat.mod_eq_of_lt hx
    rw [Nat.mod_eq_of_lt (show a.toNat < 65536 by omega), Nat.mod_eq_of_lt hA, Nat.mod_eq_of_lt hA7,
      hand _ hA7, hand _ (by omega), shiftRight_xor_nat, shiftLeft_shiftRight_of_le _ (by omega)]
    exact ⟨rfl, Nat.mod_eq_of_lt (lt_of_lt_of_le (Nat.xor_lt_two_pow hp8 hA1) (by decide))⟩

/-- **`gf_carryless_mul` is the carry-less product.**  `c[0] ^ (c[1] << 8)` is the product of
    `a` and `b` as polynomials over GF(2), for all bytes `a`, `b`. -/
theorem gfCarrylessMul_eq_clmul (a b : BitVec 8) :
    (gfCarrylessMul a b).1.toNat ^^^ (gfCarrylessMul a b).2.toNat <<< 8 = clmul 8 a.toNat b.toNat := by
  rw [(toNat_gfCarrylessMul a b).1, (toNat_gfCarrylessMul a b).2]
  exact mod_two_pow_xor_shiftRight_shiftLeft _ 8

/-! ### `gf_mul` and `gf_square` -/

/-- `gf_mul` reduces the carry-less product of the low bytes, `c[0] ^ (c[1] << 8)`. -/
theorem gfMul_eq (a b : BitVec 16) :
    gfMul a b = gfReduce (BitVec.ofNat 64 (clmul 8 (a.toNat % 256) (b.toNat % 256)))
      (BitVec.ofNat 64 14) := by
  obtain ⟨h1, h2⟩ := toNat_gfCarrylessMul (a.setWidth 8) (b.setWidth 8)
  simp only [BitVec.toNat_setWidth] at h1 h2
  set P := clmul 8 (a.toNat % 2 ^ 8) (b.toNat % 2 ^ 8)
  have hP : P < 2 ^ 15 := clmul_lt (n := 8) (by omega)
  simp only [gfMul, paramM]
  congr 1
  apply BitVec.eq_of_toNat_eq
  simp only [BitVec.toNat_setWidth, BitVec.toNat_xor, BitVec.toNat_shiftLeft, h1, h2,
    BitVec.toNat_ofNat]
  have hx : P % 256 ^^^ P >>> 8 <<< 8 = P := mod_two_pow_xor_shiftRight_shiftLeft P 8
  have hlo : P >>> 8 <<< 8 < 2 ^ 16 := by
    simp only [Nat.shiftLeft_eq, Nat.shiftRight_eq_div_pow]; omega
  have hhi : P >>> 8 < 2 ^ 16 := by rw [Nat.shiftRight_eq_div_pow]; omega
  rw [Nat.mod_eq_of_lt (show P % 256 < 2 ^ 16 by omega), Nat.mod_eq_of_lt hhi,
    Nat.mod_eq_of_lt hlo, hx]
  rfl

/-- The product is a byte congruent to the carry-less product of the low bytes. -/
theorem gfMul_lt_congr (a b : BitVec 16) :
    (gfMul a b).toNat < 256 ∧ GfCongr (gfMul a b).toNat (clmul 8 (a.toNat % 256) (b.toNat % 256)) := by
  have hP : clmul 8 (a.toNat % 256) (b.toNat % 256) < 2 ^ 15 := clmul_lt (n := 8) (by omega)
  have hx : (BitVec.ofNat 64 (clmul 8 (a.toNat % 256) (b.toNat % 256))).toNat =
      clmul 8 (a.toNat % 256) (b.toNat % 256) := by
    rw [BitVec.toNat_ofNat]; exact Nat.mod_eq_of_lt (by omega)
  have h : (gfReduce (BitVec.ofNat 64 (clmul 8 (a.toNat % 256) (b.toNat % 256)))
      (BitVec.ofNat 64 14)).toNat < 256 ∧ GfCongr _ _ := gfReduce_lt_congr (by rw [hx]; exact hP)
  rwa [hx, ← gfMul_eq] at h

/-- **`gf_mul` multiplies in GF(2^8).**  The result is a byte, and it is the only byte congruent
    modulo `gfPoly` to the carry-less product of the low bytes of the operands. -/
theorem gfMul_spec (a b : BitVec 16) :
    (gfMul a b).toNat < 256 ∧
      ∀ r < 256, GfCongr r (clmul 8 (a.toNat % 256) (b.toNat % 256)) ↔ r = (gfMul a b).toNat :=
  ⟨(gfMul_lt_congr a b).1, GfCongr.unique_of_lt (gfMul_lt_congr a b).1 (gfMul_lt_congr a b).2⟩

theorem clmul_congr_left {w a a' : Nat} (b : Nat) (h : ∀ i < w, a.testBit i = a'.testBit i) :
    clmul w a b = clmul w a' b := by
  induction w with
  | zero => rfl
  | succ w ih => rw [clmul_succ, clmul_succ, ih (fun i hi => h i (by omega)), h w (by omega)]

/-- The low `w + 1` bits of `a` are its low `w` bits and bit `w`. -/
theorem mod_two_pow_succ_eq_xor (a w : Nat) :
    a % 2 ^ (w + 1) = a % 2 ^ w ^^^ if a.testBit w then 2 ^ w else 0 := by
  apply Nat.eq_of_testBit_eq
  intro i
  rw [Nat.testBit_xor, Nat.testBit_mod_two_pow, Nat.testBit_mod_two_pow]
  rcases lt_trichotomy i w with h | rfl | h
  · split_ifs <;> simp [h, show i < w + 1 by omega, Nat.testBit_two_pow, show w ≠ i by omega]
  · split_ifs <;> simp_all [Nat.testBit_two_pow]
  · split_ifs <;> simp [show ¬ i < w by omega, show ¬ i < w + 1 by omega, Nat.testBit_two_pow,
      show w ≠ i by omega]

/-- **Squaring over GF(2) spreads the bits.**  Bit `w` of `a` adds only `x^(2w)` to the square of
    the lower bits: the cross terms cancel in pairs. -/
theorem clmul_self_succ (w a : Nat) :
    clmul (w + 1) (a % 2 ^ (w + 1)) (a % 2 ^ (w + 1)) =
      clmul w (a % 2 ^ w) (a % 2 ^ w) ^^^ if a.testBit w then 2 ^ (2 * w) else 0 := by
  have hlow : clmul w (a % 2 ^ (w + 1)) (a % 2 ^ (w + 1)) = clmul w (a % 2 ^ w) (a % 2 ^ (w + 1)) :=
    clmul_congr_left _ fun i hi => by simp [Nat.testBit_mod_two_pow, hi, show i < w + 1 by omega]
  have htop : (a % 2 ^ (w + 1)).testBit w = a.testBit w := by simp [Nat.testBit_mod_two_pow]
  rw [clmul_succ, hlow, htop, mod_two_pow_succ_eq_xor a w, clmul_xor_right]
  split_ifs
  · have h1 : clmul w (a % 2 ^ w) (2 ^ w) = (a % 2 ^ w) <<< w := by
      have := clmul_shiftLeft w (a % 2 ^ w) 1 w
      rwa [clmul_one, Nat.mod_mod, Nat.one_shiftLeft] at this
    rw [h1, shiftLeft_xor_nat, Nat.shiftLeft_eq (2 ^ w), ← pow_add, show w + w = 2 * w by omega]
    calc _ = clmul w (a % 2 ^ w) (a % 2 ^ w) ^^^ ((a % 2 ^ w) <<< w ^^^ (a % 2 ^ w) <<< w) ^^^
          2 ^ (2 * w) := by ac_rfl
      _ = _ := by rw [Nat.xor_self, Nat.xor_zero]
  · simp

theorem clmul_self_eq_spread (w a : Nat) : clmul w (a % 2 ^ w) (a % 2 ^ w) = spread w a := by
  induction w with
  | zero => rfl
  | succ w ih =>
    rw [clmul_self_succ, ih, spread, spread, List.range_succ, List.foldl_append]
    rfl

/-- Bit `i` of `x`, moved up by `i` and masked by `1 << 2 i`, lands at `2 i`. -/
theorem toNat_shiftLeft_and_spread (x : BitVec 32) {i : Nat} (hi : 2 * i < 32) :
    (x <<< i &&& BitVec.ofNat 32 (1 <<< (2 * i))).toNat =
      if x.toNat.testBit i then 2 ^ (2 * i) else 0 := by
  have hm : (BitVec.ofNat 32 (1 <<< (2 * i))).toNat = 2 ^ (2 * i) := by
    rw [BitVec.toNat_ofNat, Nat.one_shiftLeft]
    exact Nat.mod_eq_of_lt (Nat.pow_lt_pow_right (by decide) hi)
  apply Nat.eq_of_testBit_eq
  intro j
  rw [BitVec.toNat_and, hm, Nat.testBit_and, BitVec.toNat_shiftLeft, Nat.testBit_mod_two_pow,
    Nat.testBit_shiftLeft, Nat.testBit_two_pow]
  by_cases hj : 2 * i = j
  · subst hj
    split_ifs <;> simp_all [Nat.testBit_two_pow, show i ≤ 2 * i by omega, show 2 * i - i = i by omega]
  · split_ifs <;> simp [hj, Nat.testBit_two_pow]

theorem gfSquare_eq (a : BitVec 16) :
    gfSquare a = gfReduce (BitVec.ofNat 64 (clmul 8 (a.toNat % 256) (a.toNat % 256)))
      (BitVec.ofNat 64 14) := by
  simp only [gfSquare, paramM, List.range', List.foldl, ← BitVec.shiftLeft_add]
  congr 1
  apply BitVec.eq_of_toNat_eq
  have hA : (a.setWidth 32).toNat = a.toNat := by
    rw [BitVec.toNat_setWidth]; exact Nat.mod_eq_of_lt (by omega)
  have h0 : (a.setWidth 32 &&& 1).toNat = if a.toNat.testBit 0 then 2 ^ (2 * 0) else 0 := by
    simpa [hA] using toNat_shiftLeft_and_spread (a.setWidth 32) (i := 0) (by omega)
  simp (disch := omega) only [BitVec.toNat_setWidth, BitVec.toNat_xor, toNat_shiftLeft_and_spread,
    hA, h0, BitVec.toNat_ofNat]
  have hS : clmul 8 (a.toNat % 256) (a.toNat % 256) = spread 8 a.toNat := clmul_self_eq_spread 8 _
  rw [hS]
  simp only [spread, List.range_succ, List.range_zero, List.nil_append, List.foldl_append,
    List.foldl_cons, List.foldl_nil, Nat.zero_xor]

/-- **`gf_square` is `gf_mul` of an element by itself.**  The bit-spreading loop computes the
    carry-less square, so both reduce the same word. -/
theorem gfSquare_eq_gfMul (a : BitVec 16) : gfSquare a = gfMul a a := by
  rw [gfSquare_eq, gfMul_eq]

/-! ### `gf_mul` on numbers -/

theorem ite_testBit_eq_mul (a i x : Nat) : (if a.testBit i then x else 0) = x * (a >>> i % 2) := by
  rw [Nat.testBit_to_div_mod, ← Nat.shiftRight_eq_div_pow]
  rcases Nat.mod_two_eq_zero_or_one (a >>> i) with h | h <;> simp [h]

theorem clmul_eq_clmulUnrolled (a b : Nat) : clmul 8 a b = clmulUnrolled a b := by
  simp only [clmul_succ, clmul_zero_width, Nat.zero_xor, ite_testBit_eq_mul, Nat.shiftLeft_zero,
    Nat.shiftRight_zero, clmulUnrolled]

/-- With `deg_x = 2 (M - 1)` the reduction makes two passes. -/
theorem gfReduce_fourteen (x : BitVec 64) :
    gfReduce x (BitVec.ofNat 64 14) = (gfReduceStep (gfReduceStep x)).setWidth 16 := rfl

/-- `gf_mul` computes `gfMulNat`. -/
theorem gfMul_toNat (a b : BitVec 16) : (gfMul a b).toNat = gfMulNat a.toNat b.toNat := by
  have hP : clmul 8 (a.toNat % 256) (b.toNat % 256) < 2 ^ 15 := clmul_lt (n := 8) (by omega)
  have hx : (BitVec.ofNat 64 (clmul 8 (a.toNat % 256) (b.toNat % 256))).toNat =
      clmul 8 (a.toNat % 256) (b.toNat % 256) := by
    rw [BitVec.toNat_ofNat]; exact Nat.mod_eq_of_lt (by omega)
  have hlt := (gfReduceStep_iterate (BitVec.ofNat 64 (clmul 8 (a.toNat % 256) (b.toNat % 256))) 2
    (e := 15) (by rw [hx]; exact hP)).1
  simp only [Function.iterate_succ, Function.iterate_zero, Function.comp_apply, id_eq] at hlt
  rw [gfMul_eq, gfReduce_fourteen, BitVec.toNat_setWidth, Nat.mod_eq_of_lt (lt_trans hlt (by decide)),
    toNat_gfReduceStep, toNat_gfReduceStep, hx, clmul_eq_clmulUnrolled, gfMulNat]

end Leancrypto.Hqc
