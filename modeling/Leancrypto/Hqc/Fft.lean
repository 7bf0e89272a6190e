import Mathlib

namespace Leancrypto.Hqc

/-!
# HQC — the additive FFT of `fft_avx2`

`fft.c` evaluates the error-locator polynomial at every element of GF(2^M) with the
Gao–Mateer additive FFT, improved by Bernstein, Chou and Schwabe.  The field operations
`gf_mul_avx2`, `gf_square_avx2` and `gf_inverse_avx2` are taken as the operations of a field
`F`, with XOR of the `uint16_t` representations as its addition; arrays of `uint16_t` are
functions `ℕ → F`, zero where the code leaves them zero.

* `halves` — two `memcpy`s side by side, the shape of every output array below;
* `subsetLoop`, `computeSubsetSums` — the doubling loop that lists the subset sums of a set;
* `radix`, `radixBig` — the radix conversion `f(x) = f0(x^2 - x) + x f1(x^2 - x)`, written out
  for `2^m_f ≤ 16` coefficients and recursive above;
* `fftRec` — the recursion: twisting, radix conversion, the `gammas`/`deltas` bases, two
  recursive calls (one when `f_coeffs ≤ 3`) and the combination of step 6;
* `fftAvx2` — the top level, whose basis `betas` ends in `1`, so that it needs no twist.
-/

variable {F : Type} [Field F]

/-! ### Arrays -/

/-- An array given by its first entries; `0` after them. -/
def ofList (l : List F) : ℕ → F := fun j => l.getD j 0

/-- `memcpy(a, lo, n); memcpy(a + n, hi, n)`: two `n`-entry halves side by side. -/
def halves (n : ℕ) (lo hi : ℕ → F) : ℕ → F :=
  fun i => if i < n then lo i else if i < 2 * n then hi (i - n) else 0

@[simp] theorem halves_of_lt {n i : ℕ} (lo hi : ℕ → F) (h : i < n) : halves n lo hi i = lo i :=
  if_pos h

@[simp] theorem halves_add {n i : ℕ} (lo hi : ℕ → F) (h : i < n) : halves n lo hi (n + i) = hi i := by
  simp [halves, h, show n + i < 2 * n by omega]

theorem halves_of_ge {n i : ℕ} (lo hi : ℕ → F) (h : 2 * n ≤ i) : halves n lo hi i = 0 := by
  simp [halves, show ¬ i < n by omega, show ¬ i < 2 * n by omega]

/-- Two halves given by their entries are the array of both lists. -/
theorem halves_ofList {n : ℕ} {A B : List F} (hA : A.length = n) (hB : B.length = n) :
    halves n (ofList A) (ofList B) = ofList (A ++ B) := by
  funext i
  simp only [halves, ofList]
  split_ifs
  · rw [List.getD_append _ _ _ _ (by omega)]
  · rw [List.getD_append_right _ _ _ _ (by omega), hA]
  · rw [List.getD_eq_default _ _ (by simp; omega)]

/-! ### Subset sums -/

/-- The doubling loop `for (i = 0; i < size; ++i) for (j = 0; j < (1 << i); ++j)
    w[(1 << i) + j] = t[i] ^ w[j]` after `w[0] = w0`: the entries `2^i .. 2^(i+1) - 1` are the
    first `2^i` entries plus `t[i]`. -/
def subsetLoop (w0 : F) (t : ℕ → F) : ℕ → ℕ → F
  | 0 => fun j => if j = 0 then w0 else 0
  | i + 1 => fun j =>
    if 2 ^ i ≤ j ∧ j < 2 ^ (i + 1) then t i + subsetLoop w0 t i (j - 2 ^ i)
    else subsetLoop w0 t i j

/-- `compute_subset_sums(subset_sums, set, set_size)`: entry `i` is the sum of the elements of
    `set` chosen by the bits of `i`. -/
def computeSubsetSums (set : ℕ → F) (setSize : ℕ) : ℕ → F :=
  subsetLoop 0 set setSize

/-- `compute_fft_betas`: `betas[i] = 1 << (M - 1 - i)` for `i < M - 1`, the element
    `α^(M - 1 - i)` of the polynomial basis whose generator `α` is the `uint16_t` value `2`. -/
def computeFftBetas (α : F) (M : ℕ) : ℕ → F := fun i => α ^ (M - 1 - i)

/-! ### Radix conversion -/

/-- `radix_big(f0, f1, f, m_f)` with `radix(·, ·, ·, m_f - 1)` given as `radix`.  With
    `n = 2^(m_f - 2)` and `f = A + x^n B + x^(2n) C + x^(3n) D` in blocks of `n` coefficients,
    `Q = (C + D) + x^n D` and `R = A + x^n (B + C + D)`, so that `f = R + (x^2 - x)^n Q`;
    `f0` and `f1` are those of `R` followed by those of `Q`. -/
def radixBig (radix : (ℕ → F) → (ℕ → F) × (ℕ → F)) (mF : ℕ) (f : ℕ → F) :
    (ℕ → F) × (ℕ → F) :=
  let n := 2 ^ (mF - 2)
  let Q := halves n (fun i => f (3 * n + i) + f (2 * n + i)) (fun i => f (3 * n + i))
  let R := halves n f (fun i => f (n + i) + Q i)
  let Q01 := radix Q
  let R01 := radix R
  (halves n R01.1 Q01.1, halves n R01.2 Q01.2)

/-- `radix(f0, f1, f, m_f)`: the radix conversion of a polynomial of `2^m_f` coefficients,
    written out for `m_f ≤ 4` in the order of the source and by `radix_big` above.  The code
    never calls it with `m_f = 0`. -/
def radix : ℕ → (ℕ → F) → (ℕ → F) × (ℕ → F)
  | 4, f =>
    let f0_4 := f 8 + f 12
    let f0_6 := f 12 + f 14
    let f0_7 := f 14 + f 15
    let f1_5 := f 11 + f 13
    let f1_6 := f 13 + f 14
    let f1_7 := f 15
    let f0_5 := f 10 + f 12 + f1_5
    let f1_4 := f 9 + f 13 + f0_5
    let f0_0 := f 0
    let f1_3 := f 7 + f 11 + f 15
    let f0_3 := f 6 + f 10 + f 14 + f1_3
    let f0_2 := f 4 + f0_4 + f0_3 + f1_3
    let f1_1 := f 3 + f 5 + f 9 + f 13 + f1_3
    let f1_2 := f 3 + f1_1 + f0_3
    let f0_1 := f 2 + f0_2 + f1_1
    let f1_0 := f 1 + f0_1
    (ofList [f0_0, f0_1, f0_2, f0_3, f0_4, f0_5, f0_6, f0_7],
      ofList [f1_0, f1_1, f1_2, f1_3, f1_4, f1_5, f1_6, f1_7])
  | 3, f =>
    let f0_0 := f 0
    let f0_2 := f 4 + f 6
    let f0_3 := f 6 + f 7
    let f1_1 := f 3 + f 5 + f 7
    let f1_2 := f 5 + f 6
    let f1_3 := f 7
    let f0_1 := f 2 + f0_2 + f1_1
    let f1_0 := f 1 + f0_1
    (ofList [f0_0, f0_1, f0_2, f0_3], ofList [f1_0, f1_1, f1_2, f1_3])
  | 2, f =>
    let f0_0 := f 0
    let f0_1 := f 2 + f 3
    let f1_0 := f 1 + f0_1
    let f1_1 := f 3
    (ofList [f0_0, f0_1], ofList [f1_0, f1_1])
  | 1, f => (ofList [f 0], ofList [f 1])
  | mF + 5, f => radixBig (radix (mF + 4)) (mF + 5) f
  | 0, _ => (fun _ => 0, fun _ => 0)

/-! ### The recursion -/

/-- The twisting loop of step 2 after its first `i` iterations: `beta_m_pow` is multiplied by
    `b` and `f[i] = gf_mul(beta_m_pow, f[i])`, for `i = 1, 2, …`. -/
def twistLoop (b : F) (f : ℕ → F) : ℕ → F × (ℕ → F)
  | 0 => (1, f)
  | i + 1 =>
    let p := (twistLoop b f i).1 * b
    (p, Function.update (twistLoop b f i).2 (i + 1) (p * (twistLoop b f i).2 (i + 1)))

/-- Step 6: `memcpy(w + k, v, 2 * k); w[0] = u[0]; w[k] ^= u[0];` and, for `0 < i < k`,
    `w[i] = u[i] ^ gf_mul(sums[i], v[i]); w[k + i] ^= w[i]`. -/
def step6 (k : ℕ) (u v sums : ℕ → F) : ℕ → F :=
  let lo : ℕ → F := fun i => if i = 0 then u 0 else u i + sums i * v i
  halves k lo (fun i => if i = 0 then v 0 + u 0 else v i + lo i)

/-- The `f_coeffs <= 3` branch of step 6, where `f1` is the constant `c = f1[0]`:
    `w[0] = u[0]; w[k] = u[0] ^ c;` and `w[i] = u[i] ^ gf_mul(sums[i], c); w[k + i] = w[i] ^ c`. -/
def step6Const (k : ℕ) (u sums : ℕ → F) (c : F) : ℕ → F :=
  let lo : ℕ → F := fun i => if i = 0 then u 0 else u i + sums i * c
  halves k lo (fun i => if i = 0 then u 0 + c else lo i + c)

variable [DecidableEq F]

/-- `fft_rec(w, f, f_coeffs, m, m_f, betas)`: `w[i]` for `i < 2^m`, meant to be `f` at the sum
    of the `betas` chosen by the bits of `i`.  Step 1 (`m_f = 1`) evaluates `f[0] + f[1] x`
    by the doubling loop; otherwise step 2 twists `f` by `beta_m = betas[m - 1]` unless it is
    `1`, step 3 converts it, step 4 forms `gammas[i] = betas[i] / beta_m` and
    `deltas[i] = gammas[i]^2 + gammas[i]`, step 5 recurses on `f0` and `f1` (on `f0` alone when
    `f_coeffs <= 3`), and step 6 combines.  Entries of `gammas` and `deltas` past `m - 1`,
    which the code leaves zero, are never read. -/
def fftRec : (ℕ → F) → ℕ → ℕ → ℕ → (ℕ → F) → ℕ → F
  | f, _, m, 1, betas => subsetLoop (f 0) (fun i => betas i * f 1) m
  | f, fCoeffs, m, mF + 2, betas =>
    let bm := betas (m - 1)
    let f := if bm ≠ 1 then (twistLoop bm f (2 ^ (mF + 2) - 1)).2 else f
    let f01 := radix (mF + 2) f
    let gammas : ℕ → F := fun i => betas i * bm⁻¹
    let deltas : ℕ → F := fun i => gammas i ^ 2 + gammas i
    let gammasSums := computeSubsetSums gammas (m - 1)
    let u := fftRec f01.1 ((fCoeffs + 1) / 2) (m - 1) (mF + 1) deltas
    let k := 2 ^ ((m - 1) % 16)
    if fCoeffs ≤ 3 then step6Const k u gammasSums (f01.2 0)
    else step6 k u (fftRec f01.2 (fCoeffs / 2) (m - 1) (mF + 1) deltas) gammasSums
  | _, _, _, 0, _ => fun _ => 0

/-- `fft_avx2(w, f, f_coeffs)` for `LC_HQC_PARAM_M = M` and `LC_HQC_PARAM_FFT = FFT`: the
    basis `betas` followed by `1` (steps 1 and 2 have nothing to do), the radix conversion of
    `f`, `deltas[i] = betas[i]^2 + betas[i]`, two calls of `fft_rec` and step 6 with the subset
    sums of `betas`. -/
def fftAvx2 (α : F) (M FFT : ℕ) (f : ℕ → F) (fCoeffs : ℕ) : ℕ → F :=
  let betas := computeFftBetas α M
  let betasSums := computeSubsetSums betas (M - 1)
  let f01 := radix FFT f
  let deltas : ℕ → F := fun i => betas i ^ 2 + betas i
  let u := fftRec f01.1 ((fCoeffs + 1) / 2) (M - 1) (FFT - 1) deltas
  let v := fftRec f01.2 (fCoeffs / 2) (M - 1) (FFT - 1) deltas
  step6 (2 ^ (M - 1)) u v betasSums

end Leancrypto.Hqc
