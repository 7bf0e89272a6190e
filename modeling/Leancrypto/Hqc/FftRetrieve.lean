import Mathlib
import Leancrypto.Hqc.FftEval
import Leancrypto.Hqc.GfField

namespace Leancrypto.Hqc

/-!
# HQC — `fft_retrieve_error_poly_avx2`: the error positions read off the FFT

`fft_avx2` leaves in `w[i]` and `w[2^(M-1) + i]` the values of the error locator polynomial at
the points `g_i` and `g_i + 1`, `g_i` the subset sums of `betas`.  A root `α^(-j)` marks an error
at position `j`, so the code sets `error[2^M - 1 - gf_log[g]]` when the value at `g` is zero,
with the branch-free test `1 ^ ((uint16_t)-w >> 15)`; the points `0` and `1` both go to
`error[0]`.

Here the field is the one of `gf.c` (`Gf256`), with `α` its element `2`.

* `zeroFlag_eq` — the test is `1` exactly for a zero value, for values up to `2^15`;
* `foldl_flips_of_ne`, `foldl_flips_hit` — a loop of flips at pairwise distinct positions sets
  each position from its own value and leaves the others alone;
* `gfAlpha_pow_gfLog` — `α` generates the nonzero elements (`exists_gfAlpha_pow`), so `gf_log`
  is a logarithm;
* `subsetSum_betas_inj` — the points `g_i`, `i < 128`, are distinct and never differ by `1`;
  `exists_gammasSums` — together with the `g_i + 1` they cover the field;
* `fftRetrieveErrorPoly_spec` — **each point other than `0` and `1` has its own position
  `2^M - 1 - gf_log[g]`, which the code flips when the value at `g` is zero**; `error[0]`
  takes the flags of `0` and `1`, and positions from `2^M - 1` on are left alone;
* `fftRetrieveErrorPoly_roots` — **with `w` from `fft_avx2` (`indep_gfAlpha_pow`: the basis
  it needs), the position of every element `x ∉ {0, 1}` is flipped exactly when `x` is a root of
  the error locator**.
-/

/-! ### The code -/

/-- `gf_log[x]`, the table of `gf.h`, which is not in the sources.  Modelled from the spec: the
    exponent `k < 2^M - 1` with `α^k = x`, and `0` where there is none (`x = 0`). -/
def gfLog (x : BitVec 16) : ℕ :=
  ((List.range gfMulOrder).find? fun k => (gfAlpha ^ k).val = x).getD 0

/-- `1 ^ ((uint16_t)-w >> 15)`, as the `uint8_t` it is XORed into. -/
def zeroFlag (w : BitVec 16) : BitVec 8 := (1 ^^^ ((-w) >>> 15)).setWidth 8

/-- `error[index] ^= 1 ^ ((uint16_t)-w >> 15)`. -/
def flipFlag (error : ℕ → BitVec 8) (index : ℕ) (w : BitVec 16) : ℕ → BitVec 8 :=
  Function.update error index (error index ^^^ zeroFlag w)

/-- `fft_retrieve_error_poly_avx2(error, w)`: the subset sums `gammas_sums` of the betas, the
    two flips into `error[0]` for the points `0` and `1`, then for `0 < i < 2^(M-1)` the flips at
    `LC_HQC_PARAM_GF_MUL_ORDER - gf_log[gammas_sums[i]]` and
    `LC_HQC_PARAM_GF_MUL_ORDER - gf_log[gammas_sums[i] ^ 1]`. -/
def fftRetrieveErrorPoly (error : ℕ → BitVec 8) (w : ℕ → BitVec 16) : ℕ → BitVec 8 :=
  let gammasSums := computeSubsetSums (computeFftBetas gfAlpha paramM) (paramM - 1)
  let k := 2 ^ (paramM - 1)
  (List.range' 1 (k - 1)).foldl (fun e i =>
      flipFlag (flipFlag e (gfMulOrder - gfLog (gammasSums i).val) (w i))
        (gfMulOrder - gfLog ((gammasSums i).val ^^^ 1)) (w (k + i)))
    (flipFlag (flipFlag error 0 (w 0)) 0 (w k))

/-- `gammas_sums`, the points `g_i` that `fft_retrieve_error_poly_avx2` computes: the subset sums
    of the `M - 1` betas. -/
def gammasSums : ℕ → Gf256 := computeSubsetSums (computeFftBetas gfAlpha paramM) (paramM - 1)

/-! ### The zero test and the flips -/

/-- The branch-free test is `1` for a zero value and `0` for any other value up to `2^15`. -/
theorem zeroFlag_eq {w : BitVec 16} (hw : w.toNat ≤ 2 ^ 15) :
    zeroFlag w = if w = 0 then 1 else 0 := by
  by_cases h0 : w = 0
  · subst h0; decide
  · have hpos : w.toNat ≠ 0 := fun h => h0 (BitVec.eq_of_toNat_eq h)
    have h1 : (-w) >>> 15 = 1#16 := BitVec.eq_of_toNat_eq (by
      rw [BitVec.toNat_ushiftRight, BitVec.toNat_neg, Nat.shiftRight_eq_div_pow]
      norm_num
      omega)
    rw [zeroFlag, h1, if_neg h0]
    rfl

@[simp] theorem flipFlag_same (e : ℕ → BitVec 8) (j : ℕ) (v : BitVec 16) :
    flipFlag e j v j = e j ^^^ zeroFlag v := by
  simp [flipFlag]

theorem flipFlag_of_ne (e : ℕ → BitVec 8) {j idx : ℕ} (v : BitVec 16) (h : idx ≠ j) :
    flipFlag e j v idx = e idx :=
  Function.update_noteq h _ _

section Loop

variable (f g : ℕ → ℕ) (x y : ℕ → BitVec 16)

/-- The positions a loop over `l` flips are pairwise distinct: the first flips of two passes,
    the second flips of two passes, and a first and a second flip. -/
def FlipsDistinct (l : List ℕ) : Prop :=
  ∀ i ∈ l, ∀ j ∈ l, (f i = f j → i = j) ∧ (g i = g j → i = j) ∧ f i ≠ g j

/-- A position no pass flips keeps its value. -/
theorem foldl_flips_of_ne (l : List ℕ) (e : ℕ → BitVec 8) {idx : ℕ}
    (h : ∀ i ∈ l, idx ≠ f i ∧ idx ≠ g i) :
    l.foldl (fun e i => flipFlag (flipFlag e (f i) (x i)) (g i) (y i)) e idx = e idx := by
  induction l generalizing e with
  | nil => rfl
  | cons a l ih =>
    obtain ⟨hf, hg⟩ := h a (List.mem_cons_self a l)
    rw [List.foldl_cons, ih _ fun i hi => h i (List.mem_cons_of_mem a hi), flipFlag_of_ne _ _ hg,
      flipFlag_of_ne _ _ hf]

/-- **Flips at distinct positions.**  Each pass's two positions are flipped by its own two
    values only. -/
theorem foldl_flips_hit (l : List ℕ) (hl : l.Nodup) (hd : FlipsDistinct f g l) {i : ℕ}
    (hi : i ∈ l) (e : ℕ → BitVec 8) :
    l.foldl (fun e i => flipFlag (flipFlag e (f i) (x i)) (g i) (y i)) e (f i) =
        e (f i) ^^^ zeroFlag (x i) ∧
      l.foldl (fun e i => flipFlag (flipFlag e (f i) (x i)) (g i) (y i)) e (g i) =
        e (g i) ^^^ zeroFlag (y i) := by
  obtain ⟨l₁, l₂, rfl⟩ := List.append_of_mem hi
  have hni : i ∉ l₁ ++ l₂ := (List.nodup_cons.1 (List.nodup_middle.1 hl)).1
  have hmem : ∀ j ∈ l₁ ++ l₂, j ∈ l₁ ++ i :: l₂ := fun j hj =>
    List.mem_append.2 ((List.mem_append.1 hj).imp id (List.mem_cons_of_mem i))
  -- no other pass touches the two positions of pass `i`
  have hfr : ∀ j ∈ l₁ ++ l₂, (f i ≠ f j ∧ f i ≠ g j) ∧ (g i ≠ f j ∧ g i ≠ g j) := fun j hj => by
    have hij : i ≠ j := fun h => hni (h ▸ hj)
    obtain ⟨hf, hg, hfg⟩ := hd i hi j (hmem j hj)
    exact ⟨⟨fun h => hij (hf h), hfg⟩, fun h => (hd j (hmem j hj) i hi).2.2 h.symm, fun h => hij (hg h)⟩
  have hfg : f i ≠ g i := (hd i hi i hi).2.2
  rw [List.foldl_append, List.foldl_cons]
  constructor
  · rw [foldl_flips_of_ne f g x y l₂ _ fun j hj => (hfr j (List.mem_append_right l₁ hj)).1,
      flipFlag_of_ne _ _ hfg, flipFlag_same,
      foldl_flips_of_ne f g x y l₁ _ fun j hj => (hfr j (List.mem_append_left l₂ hj)).1]
  · rw [foldl_flips_of_ne f g x y l₂ _ fun j hj => (hfr j (List.mem_append_right l₁ hj)).2,
      flipFlag_same, flipFlag_of_ne _ _ hfg.symm,
      foldl_flips_of_ne f g x y l₁ _ fun j hj => (hfr j (List.mem_append_left l₂ hj)).2]

end Loop

/-! ### `gf_log` -/

/-- **`gf_log` is the logarithm to the base `α`.**  For a nonzero byte `x`, `α^gf_log[x] = x`
    and `gf_log[x] < 2^M - 1`. -/
theorem gfAlpha_pow_gfLog {x : BitVec 16} (h0 : x ≠ 0) (hx : x.toNat < 256) :
    (gfAlpha ^ gfLog x).val = x ∧ gfLog x < gfMulOrder := by
  obtain ⟨k, hk, hkx⟩ := exists_gfAlpha_pow h0 hx
  obtain ⟨j, hj⟩ := Option.isSome_iff_exists.1 (List.find?_isSome.2
    ⟨k, List.mem_range.2 hk, decide_eq_true hkx⟩ :
      ((List.range gfMulOrder).find? fun k => (gfAlpha ^ k).val = x).isSome)
  rw [gfLog, hj, Option.getD_some]
  have hp := List.find?_some hj
  exact ⟨of_decide_eq_true hp, List.mem_range.1 (List.mem_of_find?_eq_some hj)⟩

/-! ### The evaluation points -/

section CharTwo

variable {F : Type} [Field F] [CharP F 2]

/-- Over a field of characteristic two, subset sums add as the XOR of their indices. -/
theorem subsetSum_add_subsetSum (t : ℕ → F) (m i j : ℕ) :
    subsetSum t m i + subsetSum t m j = subsetSum t m (i ^^^ j) := by
  simp only [subsetSum, ← Finset.sum_add_distrib]
  refine Finset.sum_congr rfl fun k _ => ?_
  rw [Nat.testBit_xor]
  cases i.testBit k <;> cases j.testBit k <;> simp [CharTwo.add_self_eq_zero]

end CharTwo

/-- In `gf.c`'s field the betas `α^(M - 1 - i)` are the code's `1 << (M - 1 - i)`. -/
theorem computeFftBetas_gfAlpha :
    ∀ i < paramM - 1, computeFftBetas gfAlpha paramM i = Gf256.ofBits (1 <<< (paramM - 1 - i)) := by
  intro i hi
  apply Gf256.ext
  apply BitVec.eq_of_toNat_eq
  rw [computeFftBetas, toNat_gfAlpha_pow, Gf256.toNat_ofBits]
  revert i
  decide

@[simp] theorem gammasSums_zero : gammasSums 0 = 0 := by
  rw [gammasSums, computeSubsetSums_eq _ (by decide), subsetSum_zero]

/-- The point `g_i`, `i < 2^(M-1)`, is the XOR of the code's `1 << (M - 1 - j)` over the bits `j`
    of `i`. -/
theorem gammasSums_eq {i : ℕ} (hi : i < 128) :
    gammasSums i = subsetSum (fun i => Gf256.ofBits (1 <<< (paramM - 1 - i))) (paramM - 1) i := by
  rw [gammasSums, computeSubsetSums_eq _ hi]
  exact subsetSum_congr computeFftBetas_gfAlpha i

/-- A subset sum in `gf.c`'s field is the XOR of the chosen elements. -/
theorem toNat_subsetSum (t : ℕ → Gf256) (m d : ℕ) :
    (subsetSum t m d).val.toNat =
      (List.range m).foldl (fun acc j => acc ^^^ if d.testBit j then (t j).val.toNat else 0) 0 := by
  induction m with
  | zero => rfl
  | succ m ih =>
    rw [subsetSum_succ, List.range_succ, List.foldl_append, List.foldl_cons, List.foldl_nil, ← ih,
      Gf256.val_add, BitVec.toNat_xor]
    split_ifs <;> rfl

/-- No nonzero subset of the betas sums to `0` or to `1`. -/
theorem subsetSum_betas_check : ∀ d < 2 ^ (paramM - 1),
    ((subsetSum (fun i => Gf256.ofBits (1 <<< (paramM - 1 - i))) (paramM - 1) d).val.toNat = 0 →
        d = 0) ∧
      (subsetSum (fun i => Gf256.ofBits (1 <<< (paramM - 1 - i))) (paramM - 1) d).val.toNat ≠ 1 := by
  simp only [toNat_subsetSum]
  decide

/-- **The points are distinct.**  For `i, j < 2^(M-1)`, `g_i = g_j` only when `i = j`, and
    `g_i` is never `g_j + 1`. -/
theorem subsetSum_betas_inj {i j : ℕ} (hi : i < 128) (hj : j < 128) :
    (gammasSums i = gammasSums j → i = j) ∧ gammasSums i ≠ gammasSums j + 1 := by
  obtain ⟨h0, h1⟩ := subsetSum_betas_check (i ^^^ j) (Nat.xor_lt_two_pow hi hj)
  rw [gammasSums_eq hi, gammasSums_eq hj]
  rw [← subsetSum_add_subsetSum] at h0 h1
  refine ⟨fun h => Nat.xor_eq_zero.1 (h0 (by rw [h, CharTwo.add_self_eq_zero]; rfl)), fun h => h1 ?_⟩
  rw [h, add_comm _ 1, add_assoc, CharTwo.add_self_eq_zero, add_zero]
  rfl

/-- The points `g_i` and `g_i + 1`, `0 < i < 2^(M-1)`, are neither `0` nor `1`. -/
theorem gammasSums_ne {i : ℕ} (hi0 : 0 < i) (hi : i < 128) :
    gammasSums i ≠ 0 ∧ gammasSums i ≠ 1 ∧ gammasSums i + 1 ≠ 0 ∧ gammasSums i + 1 ≠ 1 := by
  obtain ⟨hinj, hne⟩ := subsetSum_betas_inj hi (show 0 < 128 by decide)
  rw [gammasSums_zero] at hinj hne
  rw [zero_add] at hne
  have h0 : gammasSums i ≠ 0 := fun h => hi0.ne' (hinj h)
  exact ⟨h0, hne, fun h => hne ((add_eq_zero_iff_eq_neg.1 h).trans (CharTwo.neg_eq 1)),
    fun h => h0 (by simpa using h)⟩

set_option maxRecDepth 20000 in
/-- The points `g_i` and `g_i + 1`, `i < 2^(M-1)`, as numbers, set every bit of a 256-bit mask. -/
theorem gammasSums_mask :
    ((List.range 128).flatMap fun i =>
        [(subsetSum (fun i => Gf256.ofBits (1 <<< (paramM - 1 - i))) (paramM - 1) i).val.toNat,
          (subsetSum (fun i => Gf256.ofBits (1 <<< (paramM - 1 - i))) (paramM - 1) i).val.toNat ^^^ 1]).foldl
      (fun m y => m ||| 1 <<< y) 0 = 2 ^ 256 - 1 := by
  simp only [toNat_subsetSum]
  decide

/-- **The points cover the field.**  Every element other than `0` and `1` is a point `g_i` or
    `g_i + 1` with `0 < i < 2^(M-1)`. -/
theorem exists_gammasSums {x : Gf256} (h0 : x ≠ 0) (h1 : x ≠ 1) :
    ∃ i, 0 < i ∧ i < 128 ∧ (gammasSums i = x ∨ gammasSums i + 1 = x) := by
  have hbit : (2 ^ 256 - 1).testBit x.val.toNat = true := by
    rw [Nat.testBit_two_pow_sub_one]; exact decide_eq_true x.isLt
  rcases mem_of_testBit_foldl_or _ 0 (gammasSums_mask ▸ hbit) with h | h
  · simp at h
  obtain ⟨i, hi, hx⟩ := List.mem_flatMap.1 h
  have hi := List.mem_range.1 hi
  rw [← gammasSums_eq hi, List.mem_cons, List.mem_singleton] at hx
  have hx' : gammasSums i = x ∨ gammasSums i + 1 = x := hx.imp
    (fun hx => Gf256.ext (BitVec.eq_of_toNat_eq hx.symm))
    (fun hx => Gf256.ext (BitVec.eq_of_toNat_eq (by rw [Gf256.val_add, BitVec.toNat_xor, hx]; rfl)))
  refine ⟨i, Nat.pos_of_ne_zero fun hi0 => ?_, hi, hx'⟩
  rw [hi0, gammasSums_zero, zero_add] at hx'
  exact hx'.elim (fun h => h0 h.symm) (fun h => h1 h.symm)

/-! ### The error positions -/

theorem val_ne_of_ne {p : Gf256} {c : Gf256} (h : p ≠ c) : p.val ≠ c.val := fun h' => h (Gf256.ext h')

/-- The position `2^M - 1 - gf_log[p]` of a point other than `0` and `1` lies in
    `1 .. 2^M - 2`. -/
theorem errorPos_bounds {p : Gf256} (h0 : p ≠ 0) (h1 : p ≠ 1) :
    1 ≤ gfMulOrder - gfLog p.val ∧ gfMulOrder - gfLog p.val < gfMulOrder := by
  obtain ⟨hpow, hlt⟩ := gfAlpha_pow_gfLog (val_ne_of_ne h0) p.isLt
  have hne : gfLog p.val ≠ 0 := fun h => h1 (Gf256.ext (by rw [← hpow, h]; rfl))
  constructor <;> omega

/-- Two nonzero points at the same position are the same point. -/
theorem eq_of_errorPos_eq {p q : Gf256} (hp0 : p ≠ 0) (hq0 : q ≠ 0)
    (h : gfMulOrder - gfLog p.val = gfMulOrder - gfLog q.val) : p = q := by
  obtain ⟨hpp, hpl⟩ := gfAlpha_pow_gfLog (val_ne_of_ne hp0) p.isLt
  obtain ⟨hqp, hql⟩ := gfAlpha_pow_gfLog (val_ne_of_ne hq0) q.isLt
  exact Gf256.ext (by rw [← hpp, ← hqp, show gfLog p.val = gfLog q.val by omega])

/-- **The flips of `fft_retrieve_error_poly_avx2`.**  `error[0]` takes the flags of the values
    at `0` and `1`; the position `2^M - 1 - gf_log[p]` of every other point `p` (`g_i` or
    `g_i + 1`, `0 < i < 2^(M-1)`) takes the flag of its own value `w[i]` or `w[2^(M-1) + i]`,
    and no other; the positions from `2^M - 1` on are left as they were. -/
theorem fftRetrieveErrorPoly_flags (error : ℕ → BitVec 8) (w : ℕ → BitVec 16) :
    fftRetrieveErrorPoly error w 0 = error 0 ^^^ zeroFlag (w 0) ^^^ zeroFlag (w 128) ∧
      (∀ i, 0 < i → i < 128 →
        fftRetrieveErrorPoly error w (gfMulOrder - gfLog (gammasSums i).val) =
            error (gfMulOrder - gfLog (gammasSums i).val) ^^^ zeroFlag (w i) ∧
          fftRetrieveErrorPoly error w (gfMulOrder - gfLog (gammasSums i + 1).val) =
            error (gfMulOrder - gfLog (gammasSums i + 1).val) ^^^ zeroFlag (w (128 + i))) ∧
      ∀ idx, gfMulOrder ≤ idx → fftRetrieveErrorPoly error w idx = error idx := by
  set f := fun i => gfMulOrder - gfLog (gammasSums i).val
  set g := fun i => gfMulOrder - gfLog (gammasSums i + 1).val
  have hdef : fftRetrieveErrorPoly error w = (List.range' 1 127).foldl
      (fun e i => flipFlag (flipFlag e (f i) (w i)) (g i) ((fun i => w (128 + i)) i))
      (flipFlag (flipFlag error 0 (w 0)) 0 (w 128)) := rfl
  have hmem : ∀ i ∈ List.range' 1 127, 0 < i ∧ i < 128 := fun i hi => by
    rw [List.mem_range'_1] at hi; omega
  have hbd : ∀ i ∈ List.range' 1 127, (1 ≤ f i ∧ f i < gfMulOrder) ∧ (1 ≤ g i ∧ g i < gfMulOrder) :=
    fun i hi => by
      obtain ⟨h0, h1, h0', h1'⟩ := gammasSums_ne (hmem i hi).1 (hmem i hi).2
      exact ⟨errorPos_bounds h0 h1, errorPos_bounds h0' h1'⟩
  have hd : FlipsDistinct f g (List.range' 1 127) := fun i hi j hj => by
    obtain ⟨hi0, hi1⟩ := hmem i hi
    obtain ⟨hj0, hj1⟩ := hmem j hj
    obtain ⟨hp, -, hp', -⟩ := gammasSums_ne hi0 hi1
    obtain ⟨hq, -, hq', -⟩ := gammasSums_ne hj0 hj1
    obtain ⟨hinj, hne⟩ := subsetSum_betas_inj hi1 hj1
    exact ⟨fun h => hinj (eq_of_errorPos_eq hp hq h),
      fun h => hinj (add_right_cancel (eq_of_errorPos_eq hp' hq' h)),
      fun h => hne (eq_of_errorPos_eq hp hq' h)⟩
  have hout : ∀ {idx}, (idx = 0 ∨ gfMulOrder ≤ idx) → ∀ i ∈ List.range' 1 127, idx ≠ f i ∧ idx ≠ g i :=
    fun hidx i hi => by have := hbd i hi; omega
  refine ⟨?_, fun i hi0 hi => ?_, fun idx hidx => ?_⟩
  · rw [hdef, foldl_flips_of_ne _ _ _ _ _ _ (hout (.inl rfl)), flipFlag_same, flipFlag_same]
  · have hi' : i ∈ List.range' 1 127 := List.mem_range'_1.2 ⟨hi0, by omega⟩
    obtain ⟨h1, h2⟩ := foldl_flips_hit f g w (fun i => w (128 + i)) _ (List.nodup_range' 1 127) hd hi'
      (flipFlag (flipFlag error 0 (w 0)) 0 (w 128))
    obtain ⟨⟨hf, -⟩, hg, -⟩ := hbd i hi'
    rw [hdef]
    exact ⟨by rw [h1, flipFlag_of_ne _ _ (by omega), flipFlag_of_ne _ _ (by omega)],
      by rw [h2, flipFlag_of_ne _ _ (by omega), flipFlag_of_ne _ _ (by omega)]⟩
  · have h0 : idx ≠ 0 := by unfold gfMulOrder at hidx; omega
    rw [hdef, foldl_flips_of_ne _ _ _ _ _ _ (hout (.inr hidx)), flipFlag_of_ne _ _ h0,
      flipFlag_of_ne _ _ h0]

/-- **`fft_retrieve_error_poly_avx2` marks the zeros of the evaluations.**  With values up to
    `2^15` in `w` (the field elements `fft_avx2` writes are below `2^M`): `error[0]` is flipped by
    the flags of the points `0` and `1`; for every other point `p` (`g_i` or `g_i + 1`,
    `0 < i < 2^(M-1)`) the position `2^M - 1 - gf_log[p]` is flipped by the flag of its own value
    `w[i]` or `w[2^(M-1) + i]`, and by nothing else; the positions from `2^M - 1` on are left as
    they were. -/
theorem fftRetrieveErrorPoly_spec (error : ℕ → BitVec 8) (w : ℕ → BitVec 16)
    (hw : ∀ i < 256, (w i).toNat ≤ 2 ^ 15) :
    fftRetrieveErrorPoly error w 0 =
        error 0 ^^^ (if w 0 = 0 then 1 else 0) ^^^ (if w 128 = 0 then 1 else 0) ∧
      (∀ i, 0 < i → i < 128 →
        ∀ p, p = computeSubsetSums (computeFftBetas gfAlpha paramM) (paramM - 1) i →
          fftRetrieveErrorPoly error w (gfMulOrder - gfLog p.val) =
              error (gfMulOrder - gfLog p.val) ^^^ (if w i = 0 then 1 else 0) ∧
            fftRetrieveErrorPoly error w (gfMulOrder - gfLog (p + 1).val) =
              error (gfMulOrder - gfLog (p + 1).val) ^^^ (if w (128 + i) = 0 then 1 else 0)) ∧
      ∀ idx, gfMulOrder ≤ idx → fftRetrieveErrorPoly error w idx = error idx := by
  obtain ⟨h0, hpts, hbig⟩ := fftRetrieveErrorPoly_flags error w
  refine ⟨by rw [h0, zeroFlag_eq (hw 0 (by decide)), zeroFlag_eq (hw 128 (by decide))],
    fun i hi0 hi p hp => ?_, hbig⟩
  rw [hp, ← gammasSums, (hpts i hi0 hi).1, (hpts i hi0 hi).2, zeroFlag_eq (hw i (by omega)),
    zeroFlag_eq (hw (128 + i) (by omega))]
  exact ⟨rfl, rfl⟩

theorem fftRetrieveErrorPoly_spec_ramp :
    (∀ i < 256, (BitVec.ofNat 16 (i % 3)).toNat ≤ 2 ^ 15) ∧
      fftRetrieveErrorPoly (fun i => BitVec.ofNat 8 i) (fun i => BitVec.ofNat 16 (i % 3)) 0 = 1 ∧
      ∀ idx, gfMulOrder ≤ idx →
        fftRetrieveErrorPoly (fun i => BitVec.ofNat 8 i) (fun i => BitVec.ofNat 16 (i % 3)) idx =
          BitVec.ofNat 8 idx :=
  have hw : ∀ i < 256, (BitVec.ofNat 16 (i % 3)).toNat ≤ 2 ^ 15 := fun i _ => by
    rw [BitVec.toNat_ofNat]; omega
  have h := fftRetrieveErrorPoly_spec (fun i => BitVec.ofNat 8 i) (fun i => BitVec.ofNat 16 (i % 3)) hw
  ⟨hw, h.1.trans (by decide), h.2.2⟩

/-! ### Root finding: `fft_avx2`, then `fft_retrieve_error_poly_avx2` -/

/-- The flag of a field element is `1` exactly when the element is zero. -/
theorem zeroFlag_val (a : Gf256) : zeroFlag a.val = if a = 0 then 1 else 0 := by
  rw [zeroFlag_eq (le_of_lt (lt_of_lt_of_le a.isLt (by decide)))]
  simp only [Gf256.ext_iff, Gf256.val_zero]

/-- **`fft_avx2` followed by `fft_retrieve_error_poly_avx2` finds the roots.**  Let `f` be an
    error locator of `2^LC_HQC_PARAM_FFT` coefficients (`2 ≤ LC_HQC_PARAM_FFT ≤ M`), zero from
    `f_coeffs` on, and let `fft_avx2` evaluate it in `gf.c`'s field.  Then the position
    `2^M - 1 - gf_log[x]` of every element `x` other than `0` and `1` is flipped exactly when
    `f(x) = 0`.  `error[0]` is flipped by each root among `0` and `1`.  The positions from
    `2^M - 1` on are left alone. -/
theorem fftRetrieveErrorPoly_roots (error : ℕ → BitVec 8) (f : ℕ → Gf256) {FFT fCoeffs : ℕ}
    (hFFT : 2 ≤ FFT) (hM : FFT ≤ paramM) (hf : ∀ j, fCoeffs ≤ j → f j = 0) :
    fftRetrieveErrorPoly error (fun i => (fftAvx2 gfAlpha paramM FFT f fCoeffs i).val) 0 =
        error 0 ^^^ (if polyEval f (2 ^ FFT) 0 = 0 then 1 else 0) ^^^
          (if polyEval f (2 ^ FFT) 1 = 0 then 1 else 0) ∧
      (∀ x : Gf256, x ≠ 0 → x ≠ 1 →
        fftRetrieveErrorPoly error (fun i => (fftAvx2 gfAlpha paramM FFT f fCoeffs i).val)
            (gfMulOrder - gfLog x.val) =
          error (gfMulOrder - gfLog x.val) ^^^ (if polyEval f (2 ^ FFT) x = 0 then 1 else 0)) ∧
      ∀ idx, gfMulOrder ≤ idx →
        fftRetrieveErrorPoly error (fun i => (fftAvx2 gfAlpha paramM FFT f fCoeffs i).val) idx =
          error idx := by
  set w := fun i => (fftAvx2 gfAlpha paramM FFT f fCoeffs i).val
  obtain ⟨h0, hpts, hbig⟩ := fftRetrieveErrorPoly_flags error w
  have hval : ∀ i < 128, w i = (polyEval f (2 ^ FFT) (gammasSums i)).val ∧
      w (128 + i) = (polyEval f (2 ^ FFT) (gammasSums i + 1)).val := fun i hi =>
    have h := fftAvx2_eq_polyEval_gammasSums gfAlpha hFFT hM (by decide) indep_gfAlpha_pow f hf hi
    ⟨congrArg Gf256.val h.1, congrArg Gf256.val h.2⟩
  have h128 : w 128 = (polyEval f (2 ^ FFT) (gammasSums 0 + 1)).val := (hval 0 (by decide)).2
  refine ⟨?_, fun x hx0 hx1 => ?_, hbig⟩
  · rw [h0, (hval 0 (by decide)).1, h128, zeroFlag_val, zeroFlag_val, gammasSums_zero, zero_add]
  · obtain ⟨i, hi0, hi, rfl | rfl⟩ := exists_gammasSums hx0 hx1
    · rw [(hpts i hi0 hi).1, (hval i hi).1, zeroFlag_val]
    · rw [(hpts i hi0 hi).2, (hval i hi).2, zeroFlag_val]

/-- The locator `α + x` has its root at `α`, whose position the two passes flip. -/
theorem fftRetrieveErrorPoly_roots_alpha :
    2 ≤ 3 ∧ 3 ≤ paramM ∧ (∀ j, 2 ≤ j → ofList [gfAlpha, 1] j = 0) ∧
      polyEval (ofList [gfAlpha, 1]) (2 ^ 3) gfAlpha = 0 ∧
      fftRetrieveErrorPoly (fun i => BitVec.ofNat 8 i)
          (fun i => (fftAvx2 gfAlpha paramM 3 (ofList [gfAlpha, 1]) 2 i).val)
          (gfMulOrder - gfLog gfAlpha.val) =
        BitVec.ofNat 8 (gfMulOrder - gfLog gfAlpha.val) ^^^ 1 :=
  have hf : ∀ j, 2 ≤ j → ofList [gfAlpha, 1] j = 0 :=
    fun j hj => List.getD_eq_default _ _ (by simpa using hj)
  have hroot : polyEval (ofList [gfAlpha, 1]) (2 ^ 3) gfAlpha = 0 := by
    simp [polyEval, Finset.sum_range_succ, ofList, CharTwo.add_self_eq_zero]
  ⟨by decide, by decide, hf, hroot,
    ((fftRetrieveErrorPoly_roots _ _ (by decide) (by decide) hf).2.1 gfAlpha (by decide)
      (by decide)).trans (by rw [if_pos hroot])⟩

end Leancrypto.Hqc
