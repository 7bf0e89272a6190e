import Mathlib
import Leancrypto.Hqc.GfMul

namespace Leancrypto.Hqc

/-!
# HQC — the bytes of `gf.c` form the field GF(2^8)

`gf.c` stores an element of GF(2^M), `M = 8`, in a `uint16_t` below `2^M`; addition is XOR,
`gf_mul` the product and `gf_inverse` the inverse.  Nothing in the code says that these
operations satisfy the field laws: it follows from `gf_mul` being the carry-less product
reduced modulo `0x11D`, and the carry-less product being the product of GF(2)[X].

* `clmul_comm`, `clmul_assoc`, `clmul_xor_left` — the carry-less product is commutative,
  associative and bilinear, for strings of any width;
* `GfCongr.clmul_right`, `GfCongr.clmul_left`, `GfCongr.xor` — congruence modulo `gfPoly`
  respects it;
* `gfMul_ring_laws` — **`gf_mul` is commutative and associative, distributes over XOR and has
  `1` as unit, on every pair or triple of `uint16_t` operands**;
* `Gf256` — the elements as `gf.c` stores them, with their bound, a commutative ring under XOR
  and `gf_mul`;
* `exists_gfAlpha_pow`, `pow_gfMulOrder` — `α = 2` generates the 255 nonzero elements (checked
  once, as a bit mask over its powers), so `a^255 = 1` for `a ≠ 0`;
* `Gf256.inv_eq_pow`, `gfInverse_spec` — the addition chain of `gf_inverse` computes `a^254`:
  **`gf_inverse` inverts every nonzero element and maps `0` to `0`**; so `Gf256` is **a
  `Field`** of characteristic two whose operations are those of `gf.c`, and what is proved of a
  field (the FFT of `fft_avx2` among it) holds of the code's arithmetic;
* `gfSquare_xor` — **`gf_square` is additive**, the Frobenius map of GF(2^8);
* `gfInverse_gfMul` — **`gf_inverse` is multiplicative and an involution** on the low byte.
-/

/-! ### The carry-less product on bit strings -/

@[simp] theorem clmul_zero_left (w b : Nat) : clmul w 0 b = 0 := by
  induction w with
  | zero => rfl
  | succ w ih => simp [clmul_succ, ih]

/-- Only the low `w` bits of the left factor are read. -/
theorem clmul_mod_two_pow (w a b : Nat) : clmul w (a % 2 ^ w) b = clmul w a b :=
  clmul_congr_left b fun i hi => by rw [Nat.testBit_mod_two_pow]; simp [hi]

/-- A left factor below `2^w` has no bits past `w`: a wider loop adds nothing. -/
theorem clmul_add_width {w a : Nat} (b k : Nat) (ha : a < 2 ^ w) : clmul (w + k) a b = clmul w a b := by
  induction k with
  | zero => rfl
  | succ k ih =>
    rw [← Nat.add_assoc, clmul_succ, ih, Nat.testBit_eq_false_of_lt
      (lt_of_lt_of_le ha (Nat.pow_le_pow_right (by decide) (by omega)))]
    simp

theorem clmul_width {w w' a : Nat} (b : Nat) (h : a < 2 ^ w) (h' : a < 2 ^ w') :
    clmul w a b = clmul w' a b := by
  rcases le_total w w' with hw | hw
  · obtain ⟨k, rfl⟩ := Nat.exists_eq_add_of_le hw
    exact (clmul_add_width b k h).symm
  · obtain ⟨k, rfl⟩ := Nat.exists_eq_add_of_le hw
    exact clmul_add_width b k h'

theorem ite_xor_bool (p q : Bool) (x : Nat) :
    (if (p ^^ q) = true then x else 0) = (if p = true then x else 0) ^^^ if q = true then x else 0 := by
  cases p <;> cases q <;> simp

theorem clmul_xor_left (w a b c : Nat) : clmul w (a ^^^ b) c = clmul w a c ^^^ clmul w b c := by
  induction w with
  | zero => simp
  | succ w ih =>
    rw [clmul_succ, clmul_succ, clmul_succ, ih, Nat.testBit_xor, ite_xor_bool]
    ac_rfl

/-- Shifting the left factor shifts the product. -/
theorem clmul_shiftLeft_left (w k a b : Nat) : clmul (w + k) (a <<< k) b = clmul w a b <<< k := by
  induction w with
  | zero =>
    have h : clmul k (a <<< k) b = clmul k 0 b := clmul_congr_left b fun i hi => by
      simp [Nat.testBit_shiftLeft, show ¬ k ≤ i by omega]
    rw [Nat.zero_add, h]
    simp
  | succ w ih =>
    have hbit : (a <<< k).testBit (w + k) = a.testBit w := by simp [Nat.testBit_shiftLeft]
    rw [show w + 1 + k = w + k + 1 by omega, clmul_succ, ih, clmul_succ, shiftLeft_xor_nat, hbit]
    split_ifs <;> simp [Nat.shiftLeft_add]

theorem clmul_two_pow (w a k : Nat) : clmul w a (2 ^ k) = (a % 2 ^ w) <<< k := by
  rw [← Nat.one_shiftLeft, clmul_shiftLeft, clmul_one]

/-- **The carry-less product is commutative.** -/
theorem clmul_comm {w v a b : Nat} (ha : a < 2 ^ w) (hb : b < 2 ^ v) : clmul w a b = clmul v b a := by
  induction w generalizing a with
  | zero => simp [show a = 0 by simpa using ha]
  | succ w ih =>
    have hsplit : a = a % 2 ^ w ^^^ if a.testBit w then 2 ^ w else 0 := by
      rw [← mod_two_pow_succ_eq_xor, Nat.mod_eq_of_lt ha]
    rw [clmul_succ, ← clmul_mod_two_pow w a, ih (Nat.mod_lt _ (Nat.two_pow_pos w))]
    conv_rhs => rw [hsplit, clmul_xor_right]
    split_ifs
    · rw [clmul_two_pow, Nat.mod_eq_of_lt hb]
    · simp

/-- **The carry-less product is associative.**  The inner product of `a < 2^w` and `b < 2^v`
    fits in `w + v` bits. -/
theorem clmul_assoc {w v a b : Nat} (c : Nat) (ha : a < 2 ^ w) (hb : b < 2 ^ v) :
    clmul (w + v) (clmul w a b) c = clmul w a (clmul v b c) := by
  induction w generalizing a with
  | zero => simp [show a = 0 by simpa using ha]
  | succ w ih =>
    have hlow : a % 2 ^ w < 2 ^ w := Nat.mod_lt _ (Nat.two_pow_pos w)
    have hab : clmul w (a % 2 ^ w) b < 2 ^ (w + v) :=
      lt_of_lt_of_le (clmul_lt hb) (Nat.pow_le_pow_right (by decide) (by omega))
    rw [clmul_succ w a b, clmul_succ w a, ← clmul_mod_two_pow w a, ← clmul_mod_two_pow w a,
      clmul_xor_left, clmul_width c (lt_of_lt_of_le hab (Nat.pow_le_pow_right (by decide) (by omega)))
        hab, ih hlow]
    split_ifs
    · rw [show w + 1 + v = v + 1 + w by omega, clmul_shiftLeft_left, clmul_add_width c 1 hb]
    · simp

/-! ### Congruence modulo `gfPoly` and products -/

theorem GfCongr.xor {x y x' y' : Nat} (h : GfCongr x y) (h' : GfCongr x' y') :
    GfCongr (x ^^^ x') (y ^^^ y') := by
  obtain ⟨q, hq⟩ := h
  obtain ⟨q', hq'⟩ := h'
  exact ⟨q ^^^ q', by rw [clmul_xor_right, ← hq, ← hq']; ac_rfl⟩

/-- Multiplying by the same string keeps strings congruent: a multiple of `gfPoly` times `a`
    is a multiple of `gfPoly`. -/
theorem GfCongr.clmul_right {x y : Nat} (w a : Nat) (h : GfCongr x y) :
    GfCongr (clmul w a x) (clmul w a y) := by
  obtain ⟨q, hq⟩ := h
  have ha : a % 2 ^ w < 2 ^ w := Nat.mod_lt _ (Nat.two_pow_pos w)
  have hP : gfPoly < 2 ^ 9 := by decide
  refine ⟨clmul w a q, ?_⟩
  calc clmul w a x ^^^ clmul w a y
      = clmul w (a % 2 ^ w) (clmul 9 gfPoly q) := by
        rw [← clmul_xor_right, hq, clmul_mod_two_pow]
    _ = clmul (w + 9) (clmul 9 gfPoly (a % 2 ^ w)) q := by
        rw [← clmul_assoc q ha hP, clmul_comm ha hP]
    _ = clmul 9 gfPoly (clmul w a q) := by
        rw [Nat.add_comm, clmul_assoc q hP ha, clmul_mod_two_pow]

theorem GfCongr.clmul_left {x y W : Nat} (c : Nat) (hx : x < 2 ^ W) (hy : y < 2 ^ W)
    (h : GfCongr x y) : GfCongr (clmul W x c) (clmul W y c) := by
  rw [clmul_comm hx (Nat.lt_two_pow c), clmul_comm hy (Nat.lt_two_pow c)]
  exact h.clmul_right c c

/-! ### `gf_mul` on `uint16_t` operands -/

theorem xor_mod_two_pow (a b n : Nat) : (a ^^^ b) % 2 ^ n = a % 2 ^ n ^^^ b % 2 ^ n :=
  Nat.eq_of_testBit_eq fun i => by
    simp only [Nat.testBit_mod_two_pow, Nat.testBit_xor]
    cases decide (i < n) <;> simp

theorem toNat_mod_lt (a : BitVec 16) : a.toNat % 256 < 2 ^ 8 := Nat.mod_lt _ (by decide)

/-- A product is determined by the class of the carry-less product it reduces. -/
theorem gfMul_eq_of_congr {a b x : BitVec 16} (hx : x.toNat < 256)
    (h : GfCongr x.toNat (clmul 8 (a.toNat % 256) (b.toNat % 256))) : gfMul a b = x :=
  BitVec.eq_of_toNat_eq
    (GfCongr.eq_of_lt ((gfMul_lt_congr a b).2.trans h.symm) (gfMul_lt_congr a b).1 hx)

theorem gfMul_comm_of_clmul (a b : BitVec 16) : gfMul a b = gfMul b a := by
  refine gfMul_eq_of_congr (gfMul_lt_congr b a).1 ?_
  rw [clmul_comm (toNat_mod_lt a) (toNat_mod_lt b)]
  exact (gfMul_lt_congr b a).2

/-- Both groupings reduce strings congruent to the carry-less product of the three low
    bytes. -/
theorem gfMul_assoc_of_clmul (a b c : BitVec 16) : gfMul (gfMul a b) c = gfMul a (gfMul b c) := by
  obtain ⟨hr, hrc⟩ := gfMul_lt_congr a b
  obtain ⟨hs, hsc⟩ := gfMul_lt_congr b c
  obtain ⟨has, hasc⟩ := gfMul_lt_congr a (gfMul b c)
  have hr16 : (gfMul a b).toNat < 2 ^ 16 := lt_trans hr (by decide)
  have hP : clmul 8 (a.toNat % 256) (b.toNat % 256) < 2 ^ 16 :=
    lt_trans (clmul_lt (n := 8) (toNat_mod_lt b)) (by decide)
  refine gfMul_eq_of_congr has (hasc.trans ?_)
  rw [Nat.mod_eq_of_lt hs, Nat.mod_eq_of_lt hr, clmul_width _ (hr : _ < 2 ^ 8) hr16]
  refine (hsc.clmul_right 8 _).trans ?_
  rw [← clmul_assoc _ (toNat_mod_lt a) (toNat_mod_lt b)]
  exact (hrc.clmul_left _ hr16 hP).symm

theorem gfMul_xor_right (a b c : BitVec 16) : gfMul a (b ^^^ c) = gfMul a b ^^^ gfMul a c := by
  obtain ⟨hb, hbc⟩ := gfMul_lt_congr a b
  obtain ⟨hc, hcc⟩ := gfMul_lt_congr a c
  refine gfMul_eq_of_congr ?_ ?_
  · rw [BitVec.toNat_xor]; exact Nat.xor_lt_two_pow (n := 8) hb hc
  · rw [BitVec.toNat_xor, BitVec.toNat_xor, show (b.toNat ^^^ c.toNat) % 256 =
      b.toNat % 256 ^^^ c.toNat % 256 from xor_mod_two_pow _ _ 8, clmul_xor_right]
    exact hbc.xor hcc

theorem toNat_gfMul_one_left (a : BitVec 16) : (gfMul 1 a).toNat = a.toNat % 256 := by
  obtain ⟨h, hc⟩ := gfMul_lt_congr 1 a
  refine GfCongr.eq_of_lt (hc.trans ?_) h (toNat_mod_lt a)
  rw [show (1 : BitVec 16).toNat % 256 = 1 from rfl, clmul_comm (by decide) (toNat_mod_lt a),
    clmul_one, Nat.mod_eq_of_lt (toNat_mod_lt a)]
  exact GfCongr.refl _

theorem gfMul_zero_left (a : BitVec 16) : gfMul 0 a = 0 :=
  gfMul_eq_of_congr (by decide) (by simpa using GfCongr.refl 0)

/-- **`gf_mul` satisfies the laws of a commutative ring with XOR as addition.**  For all
    `uint16_t` operands it is commutative, associative and distributes over XOR, and `1` is
    its unit on the low byte. -/
theorem gfMul_ring_laws (a b c : BitVec 16) :
    gfMul a b = gfMul b a ∧ gfMul (gfMul a b) c = gfMul a (gfMul b c) ∧
      gfMul a (b ^^^ c) = gfMul a b ^^^ gfMul a c ∧ (gfMul 1 a).toNat = a.toNat % 256 :=
  ⟨gfMul_comm_of_clmul a b, gfMul_assoc_of_clmul a b c, gfMul_xor_right a b c,
    toNat_gfMul_one_left a⟩

/-! ### The field -/

/-- An element of GF(2^8) as `gf.c` keeps it: a `uint16_t` below `2^M`. -/
@[ext] structure Gf256 where
  val : BitVec 16
  isLt : val.toNat < 256
deriving DecidableEq

theorem toNat_gfSquare_lt (a : BitVec 16) : (gfSquare a).toNat < 256 := by
  rw [gfSquare_eq, ← gfMul_eq]; exact (gfMul_lt_congr a a).1

namespace Gf256

instance : Zero Gf256 := ⟨⟨0, by decide⟩⟩
instance : One Gf256 := ⟨⟨1, by decide⟩⟩
instance : Add Gf256 :=
  ⟨fun a b => ⟨a.val ^^^ b.val, by rw [BitVec.toNat_xor]; exact Nat.xor_lt_two_pow (n := 8) a.isLt b.isLt⟩⟩
instance : Neg Gf256 := ⟨id⟩
instance : Mul Gf256 := ⟨fun a b => ⟨gfMul a.val b.val, (gfMul_lt_congr _ _).1⟩⟩
instance : Inv Gf256 := ⟨fun a => ⟨gfInverse a.val, toNat_gfSquare_lt _⟩⟩

@[simp] theorem val_zero : (0 : Gf256).val = 0 := rfl
@[simp] theorem val_one : (1 : Gf256).val = 1 := rfl
@[simp] theorem val_add (a b : Gf256) : (a + b).val = a.val ^^^ b.val := rfl
@[simp] theorem val_neg (a : Gf256) : (-a).val = a.val := rfl
@[simp] theorem val_mul (a b : Gf256) : (a * b).val = gfMul a.val b.val := rfl
@[simp] theorem val_inv (a : Gf256) : a⁻¹.val = gfInverse a.val := rfl

theorem val_mod (a : Gf256) : a.val.toNat % 256 = a.val.toNat := Nat.mod_eq_of_lt a.isLt

theorem one_mul_val (a : Gf256) : gfMul 1 a.val = a.val :=
  BitVec.eq_of_toNat_eq (by rw [toNat_gfMul_one_left, val_mod])

instance : CommRing Gf256 where
  add_assoc _ _ _ := Gf256.ext (BitVec.xor_assoc _ _ _)
  zero_add _ := Gf256.ext (BitVec.eq_of_toNat_eq (by simp))
  add_zero _ := Gf256.ext (BitVec.eq_of_toNat_eq (by simp))
  add_comm _ _ := Gf256.ext (BitVec.xor_comm _ _)
  neg_add_cancel _ := Gf256.ext (BitVec.eq_of_toNat_eq (by simp))
  mul_assoc _ _ _ := Gf256.ext (gfMul_assoc_of_clmul _ _ _)
  one_mul a := Gf256.ext (one_mul_val a)
  mul_one a := Gf256.ext ((gfMul_comm_of_clmul _ _).trans (one_mul_val a))
  zero_mul _ := Gf256.ext (gfMul_zero_left _)
  mul_zero _ := Gf256.ext ((gfMul_comm_of_clmul _ _).trans (gfMul_zero_left _))
  left_distrib _ _ _ := Gf256.ext (gfMul_xor_right _ _ _)
  right_distrib a b c := Gf256.ext (by
    simp only [val_mul, val_add]
    rw [gfMul_comm_of_clmul, gfMul_xor_right, gfMul_comm_of_clmul c.val, gfMul_comm_of_clmul c.val])
  mul_comm _ _ := Gf256.ext (gfMul_comm_of_clmul _ _)
  nsmul := nsmulRec
  zsmul := zsmulRec

end Gf256

/-! ### `α` generates the nonzero elements -/

/-- `LC_HQC_PARAM_GF_MUL_ORDER`: `2^M - 1`, the order of the multiplicative group.  Modelled
    from the spec. -/
def gfMulOrder : ℕ := 255

/-- `α`, the `uint16_t` value `2`, the root of `gfPoly`. -/
def gfAlpha : Gf256 := ⟨2, by decide⟩

/-- A power on numbers: `k` products by `b`, from `1`. -/
theorem toNat_val_pow (b : Gf256) (k : ℕ) :
    (b ^ k).val.toNat = (fun y => gfMulNat y b.val.toNat)^[k] 1 := by
  induction k with
  | zero => rfl
  | succ k ih =>
    rw [pow_succ, Gf256.val_mul, gfMul_toNat, ih, Function.iterate_succ_apply']

theorem toNat_gfAlpha_pow (k : ℕ) : (gfAlpha ^ k).val.toNat = (fun y => gfMulNat y 2)^[k] 1 :=
  toNat_val_pow gfAlpha k

/-- A set bit of an OR of powers of two comes from the start or from one of the powers. -/
theorem mem_of_testBit_foldl_or (l : List ℕ) (m : ℕ) {x : ℕ}
    (h : (l.foldl (fun m y => m ||| 1 <<< y) m).testBit x = true) : m.testBit x = true ∨ x ∈ l := by
  induction l generalizing m with
  | nil => exact .inl h
  | cons a l ih =>
    rcases ih _ h with h | h
    · rw [Nat.testBit_or, Nat.one_shiftLeft, Nat.testBit_two_pow] at h
      rcases Bool.or_eq_true_iff.1 h with h | h
      · exact .inl h
      · exact .inr (List.mem_cons.2 (.inl (of_decide_eq_true h).symm))
    · exact .inr (List.mem_cons_of_mem a h)

set_option maxRecDepth 20000 in
/-- The 255 powers `α^k`, `k < 255`, set every bit `1 .. 255`: they are the nonzero bytes. -/
theorem gfAlpha_powers_mask :
    (List.iterate (fun y => gfMulNat y 2) 1 gfMulOrder).foldl (fun m y => m ||| 1 <<< y) 0 =
      2 ^ 256 - 2 := by
  decide

theorem exists_gfAlpha_pow {x : BitVec 16} (h0 : x ≠ 0) (hx : x.toNat < 256) :
    ∃ k < gfMulOrder, (gfAlpha ^ k).val = x := by
  have hpos : x.toNat ≠ 0 := fun h => h0 (BitVec.eq_of_toNat_eq h)
  have hbit : (2 ^ 256 - 2).testBit x.toNat = true := by
    rw [show 2 ^ 256 - 2 = (2 ^ 255 - 1) <<< 1 by rfl, Nat.testBit_shiftLeft,
      Nat.testBit_two_pow_sub_one]
    simp only [Bool.and_eq_true, decide_eq_true_eq]
    omega
  rcases mem_of_testBit_foldl_or _ 0 (gfAlpha_powers_mask ▸ hbit) with h | h
  · simp at h
  · obtain ⟨k, hk, hkx⟩ := List.mem_iterate.1 h
    exact ⟨k, hk, BitVec.eq_of_toNat_eq (by rw [toNat_gfAlpha_pow, ← hkx])⟩

set_option maxRecDepth 4000 in
/-- `α^255 = 1`, computed as `(α^15)^17`. -/
theorem gfAlpha_pow_gfMulOrder : gfAlpha ^ gfMulOrder = 1 :=
  Gf256.ext (BitVec.eq_of_toNat_eq (by
    rw [show gfMulOrder = 15 * 17 from rfl, pow_mul, toNat_val_pow, toNat_gfAlpha_pow]
    decide))

/-- Every nonzero element, a power of `α`, has order dividing `2^M - 1`. -/
theorem pow_gfMulOrder {a : Gf256} (ha : a ≠ 0) : a ^ gfMulOrder = 1 := by
  obtain ⟨k, -, hk⟩ := exists_gfAlpha_pow (fun h => ha (Gf256.ext h)) a.isLt
  rw [← Gf256.ext hk, ← pow_mul, mul_comm, pow_mul, gfAlpha_pow_gfMulOrder, one_pow]

/-! ### `gf_inverse` -/

/-- `gf_inverse` computes `a^254` along its addition chain `1 2 3 4 7 11 15 30 60 120 127 254`. -/
theorem Gf256.inv_eq_pow (a : Gf256) : a⁻¹ = a ^ 254 := by
  have hsq : ∀ x : Gf256, gfSquare x.val = (x * x).val := fun x => by
    rw [gfSquare_eq, ← gfMul_eq]; rfl
  have hmul : ∀ x y : Gf256, gfMul x.val y.val = (x * y).val := fun _ _ => rfl
  apply Gf256.ext
  simp only [Gf256.val_inv, gfInverse, hsq, hmul]
  exact congrArg Gf256.val (by ring)

instance : Field Gf256 where
  exists_pair_ne := ⟨0, 1, by decide⟩
  mul_inv_cancel a ha := by
    rw [Gf256.inv_eq_pow, ← pow_succ', show 254 + 1 = gfMulOrder from rfl, pow_gfMulOrder ha]
  inv_zero := by rw [Gf256.inv_eq_pow, zero_pow (by decide)]
  nnqsmul := _
  qsmul := _

instance : CharP Gf256 2 := CharTwo.of_one_ne_zero_of_two_eq_zero (by decide) rfl

namespace Gf256

/-! ### From `uint16_t` values to the field -/

/-- The element a `uint16_t` operand stands for: its low byte, all that `gf_mul`, `gf_square`
    and `gf_inverse` read of it. -/
def ofBits (x : BitVec 16) : Gf256 :=
  ⟨BitVec.ofNat 16 (x.toNat % 256), by
    rw [BitVec.toNat_ofNat]; exact lt_of_le_of_lt (Nat.mod_le _ _) (Nat.mod_lt _ (by decide))⟩

theorem toNat_ofBits (x : BitVec 16) : (ofBits x).val.toNat = x.toNat % 256 := by
  rw [ofBits, BitVec.toNat_ofNat]; exact Nat.mod_eq_of_lt (lt_trans (Nat.mod_lt _ (by decide)) (by decide))

@[simp] theorem ofBits_val (a : Gf256) : ofBits a.val = a :=
  Gf256.ext (BitVec.eq_of_toNat_eq (by rw [toNat_ofBits, val_mod]))

theorem ofBits_xor (a b : BitVec 16) : ofBits (a ^^^ b) = ofBits a + ofBits b :=
  Gf256.ext (BitVec.eq_of_toNat_eq (by
    rw [val_add, BitVec.toNat_xor, toNat_ofBits, toNat_ofBits, toNat_ofBits, BitVec.toNat_xor]
    exact xor_mod_two_pow _ _ 8))

theorem gfMul_eq_ofBits (a b : BitVec 16) : gfMul a b = (ofBits a * ofBits b).val := by
  rw [val_mul, gfMul_eq, gfMul_eq, toNat_ofBits, toNat_ofBits, Nat.mod_mod, Nat.mod_mod]

theorem gfSquare_eq_ofBits (a : BitVec 16) : gfSquare a = (ofBits a ^ 2).val := by
  rw [gfSquare_eq, ← gfMul_eq, gfMul_eq_ofBits, sq]

/-- `gf_inverse` reads the low byte only. -/
theorem gfInverse_eq_ofBits (a : BitVec 16) : gfInverse a = (ofBits a)⁻¹.val := by
  have hsq : gfSquare a = gfSquare (ofBits a).val := by
    rw [gfSquare_eq, gfSquare_eq, toNat_ofBits, Nat.mod_mod]
  have hmul : ∀ x, gfMul x a = gfMul x (ofBits a).val := fun x => by
    rw [gfMul_eq, gfMul_eq, toNat_ofBits, Nat.mod_mod]
  simp only [val_inv, gfInverse, hsq, hmul]

theorem ofBits_eq_zero (a : BitVec 16) : ofBits a = 0 ↔ a.toNat % 256 = 0 :=
  ⟨fun h => by rw [← toNat_ofBits, h]; rfl,
    fun h => Gf256.ext (BitVec.eq_of_toNat_eq (by rw [toNat_ofBits, h]; rfl))⟩

end Gf256

open Gf256 in
/-- **`gf_inverse` inverts.**  It returns `0` for the zero element, and for every other element
    `a` an element whose product with `a` is `1`; only the low byte of `a` is read. -/
theorem gfInverse_spec (a : BitVec 16) :
    (a.toNat % 256 = 0 ∧ gfInverse a = 0) ∨ (a.toNat % 256 ≠ 0 ∧ gfMul (gfInverse a) a = 1) := by
  rw [gfInverse_eq_ofBits, gfMul_eq_ofBits _ a, ofBits_val]
  by_cases h : ofBits a = 0
  · exact .inl ⟨(ofBits_eq_zero a).1 h, by rw [h, inv_zero]; rfl⟩
  · exact .inr ⟨fun h' => h ((ofBits_eq_zero a).2 h'), by rw [inv_mul_cancel₀ h]; rfl⟩

open Gf256 in
/-- **`gf_square` is additive.**  Squaring is the Frobenius map of a field of characteristic
    two: `gf_square(a ^ b) = gf_square(a) ^ gf_square(b)` for all `uint16_t` operands. -/
theorem gfSquare_xor (a b : BitVec 16) : gfSquare (a ^^^ b) = gfSquare a ^^^ gfSquare b := by
  rw [gfSquare_eq_ofBits, gfSquare_eq_ofBits, gfSquare_eq_ofBits, ofBits_xor, CharTwo.add_sq]
  rfl

open Gf256 in
/-- **`gf_inverse` is multiplicative and an involution.**  The inverse of a product is the
    product of the inverses, and inverting twice gives back the low byte. -/
theorem gfInverse_gfMul (a b : BitVec 16) :
    gfInverse (gfMul a b) = gfMul (gfInverse a) (gfInverse b) ∧
      (gfInverse (gfInverse a)).toNat = a.toNat % 256 := by
  constructor
  · rw [gfMul_eq_ofBits a, gfInverse_eq_ofBits, ofBits_val, mul_inv, gfMul_eq_ofBits,
      gfInverse_eq_ofBits a, gfInverse_eq_ofBits b, ofBits_val, ofBits_val]
  · rw [gfInverse_eq_ofBits a, gfInverse_eq_ofBits, ofBits_val, inv_inv, toNat_ofBits]

end Leancrypto.Hqc
