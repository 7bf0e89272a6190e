import Mathlib
import Leancrypto.Hqc.Radix
import Leancrypto.Hqc.GfField

namespace Leancrypto.Hqc

/-!
# HQC — `fft_avx2` evaluates the polynomial at every field element

Gao–Mateer: to evaluate `f` at every sum of a set of basis elements `betas`, twist `f` so that
the last basis element becomes `1`, write it as `f0(x^2 + x) + x f1(x^2 + x)`, and note that
`x` and `x + 1` have the same `x^2 + x`; so `f0` and `f1` need only be evaluated at the sums of
`deltas[i] = gammas[i]^2 + gammas[i]`, one element fewer.  The code's `f_coeffs` tracks how many
coefficients are left: with at most three, `f1` is a constant and its recursive call is skipped.

* `subsetSum`, `subsetLoop_eq` — the doubling loop lists the subset sums;
* `Indep`, `Indep.deltas` — linear independence over GF(2), kept by step 4, is what makes
  every twist possible (`beta_m ≠ 0`);
* `step6_eval` — step 6 turns the values of `f0`, `f1` into those of `f` at `x` and `x + 1`;
* `fftRec_eval` — **`fft_rec` evaluates its argument at all subset sums of its basis**, by
  induction over `m_f`;
* `fftAvx2_eval` — **`fft_avx2` evaluates `f` at `g_i` and `g_i + 1` for every `i < 2^(M-1)`**.
-/

variable {F : Type} [Field F]

/-! ### Subset sums -/

/-- The sum of the elements `t j`, `j < m`, chosen by the bits of `i`. -/
def subsetSum (t : ℕ → F) (m i : ℕ) : F :=
  ∑ j in Finset.range m, if i.testBit j then t j else 0

theorem subsetSum_succ (t : ℕ → F) (m i : ℕ) :
    subsetSum t (m + 1) i = subsetSum t m i + if i.testBit m then t m else 0 :=
  Finset.sum_range_succ _ _

theorem subsetSum_succ_of_lt (t : ℕ → F) {m i : ℕ} (hi : i < 2 ^ m) :
    subsetSum t (m + 1) i = subsetSum t m i := by
  rw [subsetSum_succ, Nat.testBit_lt_two_pow hi, if_neg Bool.false_ne_true, add_zero]

theorem subsetSum_two_pow_add (t : ℕ → F) {m i : ℕ} (hi : i < 2 ^ m) :
    subsetSum t (m + 1) (2 ^ m + i) = subsetSum t m i + t m := by
  rw [subsetSum_succ, Nat.testBit_two_pow_add_eq, Nat.testBit_lt_two_pow hi, Bool.not_false,
    if_pos rfl]
  exact congrArg (· + t m) (Finset.sum_congr rfl fun j hj => by
    rw [Nat.testBit_two_pow_add_gt (Finset.mem_range.1 hj)])

@[simp] theorem subsetSum_zero (t : ℕ → F) (m : ℕ) : subsetSum t m 0 = 0 := by
  simp [subsetSum]

theorem subsetSum_mul (t : ℕ → F) (c : F) (m i : ℕ) :
    subsetSum (fun j => t j * c) m i = subsetSum t m i * c := by
  simp only [subsetSum, Finset.sum_mul, ite_mul, zero_mul]

theorem subsetSum_congr {t t' : ℕ → F} {m : ℕ} (h : ∀ j < m, t j = t' j) (i : ℕ) :
    subsetSum t m i = subsetSum t' m i :=
  Finset.sum_congr rfl fun j hj => by rw [h j (Finset.mem_range.1 hj)]

/-- The doubling loop lists `w0` plus the subset sums. -/
theorem subsetLoop_eq (w0 : F) (t : ℕ → F) {m i : ℕ} (hi : i < 2 ^ m) :
    subsetLoop w0 t m i = w0 + subsetSum t m i := by
  induction m generalizing i with
  | zero =>
    obtain rfl : i = 0 := by simpa using hi
    simp [subsetLoop]
  | succ m ih =>
    have h2 : 2 ^ (m + 1) = 2 ^ m * 2 := pow_succ 2 m
    rw [subsetLoop]
    dsimp only
    split_ifs with h
    · obtain ⟨i, rfl⟩ := Nat.exists_eq_add_of_le h.1
      rw [Nat.add_sub_cancel_left, ih (by omega), subsetSum_two_pow_add _ (by omega)]
      ring
    · rw [ih (by omega), subsetSum_succ_of_lt _ (by omega)]

theorem computeSubsetSums_eq (set : ℕ → F) {m i : ℕ} (hi : i < 2 ^ m) :
    computeSubsetSums set m i = subsetSum set m i := by
  rw [computeSubsetSums, subsetLoop_eq _ _ hi, zero_add]

/-! ### Independence -/

/-- The first `m` elements of `t` are linearly independent over GF(2): no nonempty set of them
    sums to zero. -/
def Indep (t : ℕ → F) (m : ℕ) : Prop :=
  ∀ s ⊆ Finset.range m, ∑ j in s, t j = 0 → s = ∅

theorem Indep.ne_zero {t : ℕ → F} {m : ℕ} (h : Indep t (m + 1)) : t m ≠ 0 := fun h0 =>
  Finset.singleton_ne_empty m (h {m} (by simp) (by simpa using h0))

theorem Indep.congr {t t' : ℕ → F} {m : ℕ} (h : Indep t m) (ht : ∀ j < m, t j = t' j) :
    Indep t' m := fun s hs h0 => h s hs (by
  rw [← h0]; exact Finset.sum_congr rfl fun j hj => ht j (Finset.mem_range.1 (hs hj)))

/-- The same elements in the opposite order. -/
theorem Indep.reverse {t : ℕ → F} {m : ℕ} (h : Indep t m) : Indep (fun j => t (m - 1 - j)) m := by
  intro s hs h0
  have hlt : ∀ x ∈ s, x < m := fun x hx => Finset.mem_range.1 (hs hx)
  refine Finset.image_eq_empty.1 (h (s.image fun j => m - 1 - j) (fun j hj => ?_) ?_)
  · obtain ⟨x, hx, rfl⟩ := Finset.mem_image.1 hj
    exact Finset.mem_range.2 (by have := hlt x hx; omega)
  · rw [Finset.sum_image fun x hx y hy hxy => by have := hlt x hx; have := hlt y hy; omega]
    exact h0

/-! ### One level of the recursion -/

theorem step6Const_eq (k : ℕ) (u sums : ℕ → F) (c : F) :
    step6Const k u sums c = step6 k u (fun _ => c) sums := by
  unfold step6Const step6
  exact congrArg (halves k _) (funext fun i => by split_ifs <;> exact add_comm _ _)

/-- The twisting loop multiplies coefficient `j` by `b^j`, for `1 ≤ j ≤ i`. -/
theorem twistLoop_eq (b : F) (f : ℕ → F) (i : ℕ) :
    twistLoop b f i = (b ^ i, fun j => if 1 ≤ j ∧ j ≤ i then b ^ j * f j else f j) := by
  induction i with
  | zero => exact Prod.ext (pow_zero b).symm (funext fun j => (if_neg (by omega)).symm)
  | succ i ih =>
    rw [twistLoop, ih]
    refine Prod.ext (pow_succ b i).symm (funext fun j => ?_)
    simp only [Function.update_apply]
    split_ifs <;> first | omega | (subst j; ring) | rfl

/-- The points of one level: for `i < 2^m`, the subset sums of `betas` over `m + 1` elements at
    `i` and `2^m + i` are `beta_m` times the subset sum of the `gammas` at `i`, and that plus
    one. -/
theorem subsetSum_gammas {betas : ℕ → F} {m : ℕ} (hb : betas m ≠ 0) {i : ℕ} (hi : i < 2 ^ m) :
    subsetSum betas (m + 1) i = betas m * subsetSum (fun j => betas j * (betas m)⁻¹) m i ∧
      subsetSum betas (m + 1) (2 ^ m + i) =
        betas m * (subsetSum (fun j => betas j * (betas m)⁻¹) m i + 1) := by
  have h : betas m * subsetSum (fun j => betas j * (betas m)⁻¹) m i = subsetSum betas m i := by
    rw [subsetSum_mul, mul_comm, mul_assoc, inv_mul_cancel₀ hb, mul_one]
  rw [subsetSum_succ_of_lt _ hi, subsetSum_two_pow_add _ hi, mul_add, h, mul_one]
  exact ⟨rfl, rfl⟩

section Decidable

variable [DecidableEq F]

/-- Step 2 in effect: coefficient `j < N` of the twisted polynomial is `b^j f[j]`. -/
theorem twist_coeff (b : F) (f : ℕ → F) {N j : ℕ} (hj : j < N) :
    (if b ≠ 1 then (twistLoop b f (N - 1)).2 else f) j = b ^ j * f j := by
  split_ifs with hb
  · rw [twistLoop_eq]
    dsimp only
    split_ifs with h
    · rfl
    · obtain rfl : j = 0 := by omega
      simp
  · simp [not_not.1 hb]

theorem twist_zero (b : F) {f : ℕ → F} (N : ℕ) {j : ℕ} (hf : f j = 0) :
    (if b ≠ 1 then (twistLoop b f (N - 1)).2 else f) j = 0 := by
  split_ifs
  · rw [twistLoop_eq]; dsimp only; split_ifs <;> simp [hf]
  · exact hf

/-- One level of `fft_rec` for `m_f ≥ 2` is step 6 over its two recursive results; in the
    `f_coeffs ≤ 3` branch the second is the constant `f1[0]`. -/
theorem fftRec_succ_succ (f : ℕ → F) (fCoeffs m mF : ℕ) (betas : ℕ → F) (hm : m < 16) :
    fftRec f fCoeffs (m + 1) (mF + 2) betas =
      let g := if betas m ≠ 1 then (twistLoop (betas m) f (2 ^ (mF + 2) - 1)).2 else f
      let gammas : ℕ → F := fun i => betas i * (betas m)⁻¹
      let deltas : ℕ → F := fun i => gammas i ^ 2 + gammas i
      step6 (2 ^ m) (fftRec (radix (mF + 2) g).1 ((fCoeffs + 1) / 2) m (mF + 1) deltas)
        (if fCoeffs ≤ 3 then fun _ => (radix (mF + 2) g).2 0
          else fftRec (radix (mF + 2) g).2 (fCoeffs / 2) m (mF + 1) deltas)
        (computeSubsetSums gammas m) := by
  rw [fftRec]
  simp only [Nat.add_sub_cancel, Nat.mod_eq_of_lt hm]
  split_ifs <;> simp only [step6Const_eq]

end Decidable

section CharTwo

variable [CharP F 2]

/-- `x ↦ x^2 + x` is additive in characteristic 2. -/
theorem sum_sq_add_self {ι : Type} (s : Finset ι) (a : ι → F) :
    ∑ j in s, (a j ^ 2 + a j) = (∑ j in s, a j) ^ 2 + ∑ j in s, a j := by
  rw [Finset.sum_add_distrib, sum_pow_char]

theorem subsetSum_sq_add_self (t : ℕ → F) (m i : ℕ) :
    subsetSum (fun j => t j ^ 2 + t j) m i = subsetSum t m i ^ 2 + subsetSum t m i := by
  rw [subsetSum, subsetSum, ← sum_sq_add_self]
  exact Finset.sum_congr rfl fun j _ => by split_ifs <;> ring

/-- **Step 4 keeps the basis independent.**  With `gammas[i] = betas[i] / beta_m` and
    `deltas[i] = gammas[i]^2 + gammas[i]`: as `x^2 + x` vanishes only at `0` and `1`, a set of
    `deltas` summing to zero would give a set of `betas` summing to `0` or to `beta_m`. -/
theorem Indep.deltas {t : ℕ → F} {m : ℕ} (h : Indep t (m + 1)) :
    Indep (fun j => (t j * (t m)⁻¹) ^ 2 + t j * (t m)⁻¹) m := by
  intro s hs h0
  have hb := h.ne_zero
  have hs' : s ⊆ Finset.range (m + 1) := hs.trans (Finset.range_subset.2 (Nat.le_succ m))
  rw [sum_sq_add_self, ← Finset.sum_mul] at h0
  have hG : (∑ j in s, t j) * (t m)⁻¹ * ((∑ j in s, t j) * (t m)⁻¹ + 1) = 0 := by
    linear_combination h0
  rcases mul_eq_zero.1 hG with h1 | h1
  · exact h s hs' (by simpa [hb] using h1)
  · have hS : ∑ j in s, t j = t m := by
      field_simp at h1
      linear_combination h1 - (t m) * (CharTwo.two_eq_zero : (2 : F) = 0)
    have hm : m ∉ s := fun hm => by simpa using hs hm
    exact absurd (h (insert m s) (Finset.insert_subset (by simp) hs')
      (by rw [Finset.sum_insert hm, hS, CharTwo.add_self_eq_zero])) (Finset.insert_ne_empty m s)

/-- **Step 6.**  If `P(x) = P0(x^2 + x) + x P1(x^2 + x)` and `u`, `v` hold `P0` and `P1` at
    `sums[i]^2 + sums[i]`, then `w` holds `P` at `sums[i]` and, `k` entries later, at
    `sums[i] + 1`. -/
theorem step6_eval {k : ℕ} {u v sums : ℕ → F} {P P0 P1 : F → F}
    (hP : ∀ x, P x = P0 (x ^ 2 + x) + x * P1 (x ^ 2 + x)) (hs : sums 0 = 0)
    (hu : ∀ i < k, u i = P0 (sums i ^ 2 + sums i)) (hv : ∀ i < k, v i = P1 (sums i ^ 2 + sums i))
    {i : ℕ} (hi : i < k) :
    step6 k u v sums i = P (sums i) ∧ step6 k u v sums (k + i) = P (sums i + 1) := by
  have hy : (sums i + 1) ^ 2 + (sums i + 1) = sums i ^ 2 + sums i := by
    linear_combination (sums i + 1) * (CharTwo.two_eq_zero : (2 : F) = 0)
  have hlo : (if i = 0 then u 0 else u i + sums i * v i) = P (sums i) := by
    rw [hP, ← hu i hi, ← hv i hi]
    split_ifs with h
    · subst h; simp [hs]
    · rfl
  simp only [step6, halves_of_lt _ _ hi, halves_add _ _ hi, hlo, true_and]
  rw [hP (sums i + 1), hy, ← hu i hi, ← hv i hi, ← hlo]
  split_ifs with h
  · subst h; simp [hs]; ring
  · ring

variable [DecidableEq F]

/-- **`fft_rec` evaluates its argument at all subset sums of its basis.**  For `m_f ≥ 1`,
    `m_f ≤ m ≤ 16`, a basis of `m` independent elements and `f` of `2^m_f` coefficients, zero
    from `f_coeffs` on: `w[i] = f(Σ_{bits j of i} betas[j])` for every `i < 2^m`. -/
theorem fftRec_eval (mF : ℕ) : ∀ {f : ℕ → F} {fCoeffs m : ℕ} {betas : ℕ → F},
    mF + 1 ≤ m → m ≤ 16 → Indep betas m → (∀ j, fCoeffs ≤ j → f j = 0) → ∀ i < 2 ^ m,
      fftRec f fCoeffs m (mF + 1) betas i = polyEval f (2 ^ (mF + 1)) (subsetSum betas m i) := by
  induction mF with
  | zero =>
    intro f fCoeffs m betas _ _ _ _ i hi
    rw [fftRec, subsetLoop_eq _ _ hi, subsetSum_mul]
    simp [polyEval, Finset.sum_range_succ]
    ring
  | succ mF ih =>
    intro f fCoeffs m betas hm h16 hb hf i hi
    obtain ⟨m, rfl⟩ : ∃ m', m = m' + 1 := ⟨m - 1, by omega⟩
    have hbm := hb.ne_zero
    rw [fftRec_succ_succ _ _ _ _ _ (by omega)]
    dsimp only
    set g := if betas m ≠ 1 then (twistLoop (betas m) f (2 ^ (mF + 2) - 1)).2 else f
    set gammas : ℕ → F := fun i => betas i * (betas m)⁻¹
    set S := computeSubsetSums gammas m
    have hδ : Indep (fun i => gammas i ^ 2 + gammas i) m := hb.deltas
    have hS : ∀ i < 2 ^ m, S i = subsetSum gammas m i := fun i hi => computeSubsetSums_eq _ hi
    have hpts : ∀ i < 2 ^ m, subsetSum (fun i => gammas i ^ 2 + gammas i) m i = S i ^ 2 + S i :=
      fun i hi => by rw [hS i hi, subsetSum_sq_add_self]
    have hg : ∀ x, polyEval g (2 ^ (mF + 2)) x = polyEval f (2 ^ (mF + 2)) (betas m * x) :=
      fun x => Finset.sum_congr rfl fun j hj => by
        rw [show g j = betas m ^ j * f j from twist_coeff _ _ (Finset.mem_range.1 hj), mul_pow]
        ring
    obtain ⟨hz0, hz1⟩ := radix_zero (mF + 1) fun j hj =>
      (twist_zero (betas m) (2 ^ (mF + 2)) (hf j hj) : g j = 0)
    have hu : ∀ i < 2 ^ m, fftRec (radix (mF + 2) g).1 ((fCoeffs + 1) / 2) m (mF + 1)
        (fun i => gammas i ^ 2 + gammas i) i = polyEval (radix (mF + 2) g).1 (2 ^ (mF + 1)) (S i ^ 2 + S i) :=
      fun i hi => by rw [ih (by omega) (by omega) hδ hz0 i hi, hpts i hi]
    have hv : ∀ i < 2 ^ m, (if fCoeffs ≤ 3 then fun _ => (radix (mF + 2) g).2 0
        else fftRec (radix (mF + 2) g).2 (fCoeffs / 2) m (mF + 1) (fun i => gammas i ^ 2 + gammas i)) i =
          polyEval (radix (mF + 2) g).2 (2 ^ (mF + 1)) (S i ^ 2 + S i) := fun i hi => by
      split_ifs
      · rw [polyEval_of_const (fun j hj => hz1 j (by omega)) Nat.one_le_two_pow]
      · rw [ih (by omega) (by omega) hδ hz1 i hi, hpts i hi]
    have hstep := fun {i} (hi : i < 2 ^ m) => step6_eval (radix_eval (mF + 1) g)
      (by rw [hS 0 (by positivity), subsetSum_zero] : S 0 = 0) hu hv hi
    rcases lt_or_le i (2 ^ m) with hi' | hi'
    · rw [(hstep hi').1, hS i hi', (subsetSum_gammas hbm hi').1]
      exact hg _
    · obtain ⟨i, rfl⟩ := Nat.exists_eq_add_of_le hi'
      have hi'' : i < 2 ^ m := by rw [pow_succ] at hi; omega
      rw [(hstep hi'').2, hS i hi'', (subsetSum_gammas hbm hi'').2]
      exact hg _

/-- **`fft_avx2` evaluates `f` at every element of GF(2^M).**  With the field operations as
    `gf_mul_avx2`, `gf_square_avx2` and `gf_inverse_avx2`, `α` the element `2` whose powers
    `1, α, …, α^(M-1)` are independent over GF(2) (the polynomial basis of GF(2^M)),
    `2 ≤ LC_HQC_PARAM_FFT ≤ M ≤ 16`, and `f` of `2^LC_HQC_PARAM_FFT` coefficients zero from
    `f_coeffs` on: for every `i < 2^(M-1)`, `w[i] = f(g_i)` and `w[2^(M-1) + i] = f(g_i + 1)`,
    where `g_i` is the sum of the `betas[j] = α^(M-1-j)` over the bits `j` of `i`. -/
theorem fftAvx2_eval (α : F) {M FFT : ℕ} (hFFT : 2 ≤ FFT) (hM : FFT ≤ M) (h16 : M ≤ 16)
    (hα : Indep (fun b => α ^ b) M) (f : ℕ → F) {fCoeffs : ℕ}
    (hf : ∀ j, fCoeffs ≤ j → f j = 0) {i : ℕ} (hi : i < 2 ^ (M - 1)) :
    fftAvx2 α M FFT f fCoeffs i = polyEval f (2 ^ FFT) (subsetSum (computeFftBetas α M) (M - 1) i) ∧
      fftAvx2 α M FFT f fCoeffs (2 ^ (M - 1) + i) =
        polyEval f (2 ^ FFT) (subsetSum (computeFftBetas α M) (M - 1) i + 1) := by
  obtain ⟨k, rfl⟩ : ∃ k, FFT = k + 2 := ⟨FFT - 2, by omega⟩
  obtain ⟨m, rfl⟩ : ∃ m, M = m + 1 := ⟨M - 1, by omega⟩
  simp only [Nat.add_sub_cancel] at hi ⊢
  set β := computeFftBetas α (m + 1)
  set S := computeSubsetSums β m
  have hβ : Indep β (m + 1) := hα.reverse
  have hδ : Indep (fun j => β j ^ 2 + β j) m := hβ.deltas.congr fun j _ => by
    simp [β, computeFftBetas]
  obtain ⟨hz0, hz1⟩ := radix_zero (k + 1) hf
  have hS : ∀ i < 2 ^ m, S i = subsetSum β m i := fun i hi => computeSubsetSums_eq _ hi
  have hpts : ∀ i < 2 ^ m, subsetSum (fun j => β j ^ 2 + β j) m i = S i ^ 2 + S i :=
    fun i hi => by rw [hS i hi, subsetSum_sq_add_self]
  have hu : ∀ i < 2 ^ m, fftRec (radix (k + 2) f).1 ((fCoeffs + 1) / 2) m (k + 1)
      (fun j => β j ^ 2 + β j) i = polyEval (radix (k + 2) f).1 (2 ^ (k + 1)) (S i ^ 2 + S i) :=
    fun i hi => by rw [fftRec_eval k (by omega) (by omega) hδ hz0 i hi, hpts i hi]
  have hv : ∀ i < 2 ^ m, fftRec (radix (k + 2) f).2 (fCoeffs / 2) m (k + 1)
      (fun j => β j ^ 2 + β j) i = polyEval (radix (k + 2) f).2 (2 ^ (k + 1)) (S i ^ 2 + S i) :=
    fun i hi => by rw [fftRec_eval k (by omega) (by omega) hδ hz1 i hi, hpts i hi]
  rw [← hS i hi]
  exact step6_eval (radix_eval (k + 1) f) (by rw [hS 0 (by positivity), subsetSum_zero]) hu hv hi

/-- `fft_avx2`'s values at the points as the code stores them: `gammas_sums[i]`, the array
    `compute_subset_sums` fills, and `gammas_sums[i] + 1`.  This is the form
    `fft_retrieve_error_poly_avx2` reads. -/
theorem fftAvx2_eq_polyEval_gammasSums (α : F) {M FFT : ℕ} (hFFT : 2 ≤ FFT) (hM : FFT ≤ M)
    (h16 : M ≤ 16) (hα : Indep (fun b => α ^ b) M) (f : ℕ → F) {fCoeffs : ℕ}
    (hf : ∀ j, fCoeffs ≤ j → f j = 0) {i : ℕ} (hi : i < 2 ^ (M - 1)) :
    fftAvx2 α M FFT f fCoeffs i =
        polyEval f (2 ^ FFT) (computeSubsetSums (computeFftBetas α M) (M - 1) i) ∧
      fftAvx2 α M FFT f fCoeffs (2 ^ (M - 1) + i) =
        polyEval f (2 ^ FFT) (computeSubsetSums (computeFftBetas α M) (M - 1) i + 1) := by
  obtain ⟨k, rfl⟩ : ∃ k, FFT = k + 2 := ⟨FFT - 2, by omega⟩
  obtain ⟨m, rfl⟩ : ∃ m, M = m + 1 := ⟨M - 1, by omega⟩
  simp only [Nat.add_sub_cancel] at hi ⊢
  set β := computeFftBetas α (m + 1)
  set S := computeSubsetSums β m
  have hδ : Indep (fun j => β j ^ 2 + β j) m := hα.reverse.deltas.congr fun j _ => by
    simp [β, computeFftBetas]
  obtain ⟨hz0, hz1⟩ := radix_zero (k + 1) hf
  have hS : ∀ i < 2 ^ m, S i = subsetSum β m i := fun i hi => computeSubsetSums_eq _ hi
  have hpts : ∀ i < 2 ^ m, subsetSum (fun j => β j ^ 2 + β j) m i = S i ^ 2 + S i :=
    fun i hi => by rw [hS i hi, subsetSum_sq_add_self]
  have hu : ∀ i < 2 ^ m, fftRec (radix (k + 2) f).1 ((fCoeffs + 1) / 2) m (k + 1)
      (fun j => β j ^ 2 + β j) i = polyEval (radix (k + 2) f).1 (2 ^ (k + 1)) (S i ^ 2 + S i) :=
    fun i hi => by rw [fftRec_eval k (by omega) (by omega) hδ hz0 i hi, hpts i hi]
  have hv : ∀ i < 2 ^ m, fftRec (radix (k + 2) f).2 (fCoeffs / 2) m (k + 1)
      (fun j => β j ^ 2 + β j) i = polyEval (radix (k + 2) f).2 (2 ^ (k + 1)) (S i ^ 2 + S i) :=
    fun i hi => by rw [fftRec_eval k (by omega) (by omega) hδ hz1 i hi, hpts i hi]
  exact step6_eval (radix_eval (k + 1) f) (by rw [hS 0 (by positivity), subsetSum_zero]) hu hv hi

end CharTwo

/-! ### `gf.c`'s field

The field `fft_avx2` computes in is GF(2^8) as `gf.c` implements it (`Gf256`), with `α` the
element `2`; its first `M` powers are the bits of a byte, so the basis `fft_avx2` needs is
there. -/

/-- The powers `α^b`, `b < M`, are the bits `2^b`. -/
theorem toNat_gfAlpha_pow_of_lt : ∀ b < paramM, (gfAlpha ^ b).val.toNat = 2 ^ b := by
  intro b hb
  rw [toNat_gfAlpha_pow]
  revert b
  decide

/-- Bit `j` of a sum of distinct powers `α^b`, `b < M`, is set exactly when `j` is one of the
    `b`. -/
theorem testBit_sum_gfAlpha_pow {s : Finset ℕ} (hs : s ⊆ Finset.range paramM) (j : ℕ) :
    (∑ b in s, gfAlpha ^ b).val.toNat.testBit j = decide (j ∈ s) := by
  induction s using Finset.induction_on with
  | empty => simp
  | @insert a s ha ih =>
    obtain ⟨has, hs⟩ := Finset.insert_subset_iff.1 hs
    rw [Finset.sum_insert ha, Gf256.val_add, BitVec.toNat_xor, Nat.testBit_xor,
      toNat_gfAlpha_pow_of_lt a (Finset.mem_range.1 has), ih hs, Nat.testBit_two_pow]
    by_cases h : j = a
    · subst h; simp [ha]
    · simp [h, Ne.symm h]

/-- `1, α, …, α^(M-1)` are independent over GF(2): they are the bits of a byte. -/
theorem indep_gfAlpha_pow : Indep (fun b => gfAlpha ^ b) paramM := fun s hs h0 =>
  Finset.eq_empty_of_forall_not_mem fun j hj => by
    simpa [h0, hj] using testBit_sum_gfAlpha_pow hs j

/-- `fft_avx2` on `gf.c`'s field with `M = 8` and `LC_HQC_PARAM_FFT = 3`, so that `fft_rec`
    recurses, for a polynomial of five coefficients, so that the call for `f1` is made too. -/
theorem fftAvx2_eval_gf256 :
    2 ≤ 3 ∧ 3 ≤ paramM ∧ paramM ≤ 16 ∧ Indep (fun b => gfAlpha ^ b) paramM ∧
      (∀ j, 5 ≤ j → ofList [gfAlpha, 1, gfAlpha ^ 2, 1, gfAlpha] j = 0) ∧ 5 < 2 ^ (paramM - 1) ∧
      (fftAvx2 gfAlpha paramM 3 (ofList [gfAlpha, 1, gfAlpha ^ 2, 1, gfAlpha]) 5 5 =
          polyEval (ofList [gfAlpha, 1, gfAlpha ^ 2, 1, gfAlpha]) (2 ^ 3)
            (subsetSum (computeFftBetas gfAlpha paramM) (paramM - 1) 5) ∧
        fftAvx2 gfAlpha paramM 3 (ofList [gfAlpha, 1, gfAlpha ^ 2, 1, gfAlpha]) 5
            (2 ^ (paramM - 1) + 5) =
          polyEval (ofList [gfAlpha, 1, gfAlpha ^ 2, 1, gfAlpha]) (2 ^ 3)
            (subsetSum (computeFftBetas gfAlpha paramM) (paramM - 1) 5 + 1)) :=
  have hf : ∀ j, 5 ≤ j → ofList [gfAlpha, 1, gfAlpha ^ 2, 1, gfAlpha] j = 0 :=
    fun j hj => List.getD_eq_default _ _ (by simpa using hj)
  ⟨by decide, by decide, by decide, indep_gfAlpha_pow, hf, by decide,
    fftAvx2_eval gfAlpha (by decide) (by decide) (by decide) indep_gfAlpha_pow _ hf (by decide)⟩

end Leancrypto.Hqc
