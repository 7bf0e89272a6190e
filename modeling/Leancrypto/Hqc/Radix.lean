import Mathlib
import Leancrypto.Hqc.Fft

namespace Leancrypto.Hqc

/-!
# HQC — the radix conversion

In characteristic 2, `x^2 - x = x^2 + x`, and for `n` a power of two
`(x^2 + x)^n = x^(2n) + x^n`.  `radix_big` rests on the second fact: it writes `f` as
`R + (x^2 + x)^n Q` and converts `R` and `Q` one level down.  The conversions written out for
`m_f ≤ 4` are one such level on top of the next smaller one (`radix_succ`), so one induction
over `m_f` covers every size.

* `polyEval` — a coefficient array of `n` entries as a polynomial, evaluated at a point;
* `radix_eval` — `f(x) = f0(x^2 + x) + x f1(x^2 + x)`;
* `radix_zero` — a polynomial of `c` coefficients splits into `f0` of `⌈c/2⌉` and `f1` of
  `⌊c/2⌋` coefficients, the sizes `fft_rec` passes down as `f_coeffs`;
* `radix_map`, `radix_poly` — the conversion commutes with field maps, so evaluating in
  the rational functions `F(X)` at `X` gives the identity in `F[X]` itself.
-/

variable {F : Type} [Field F]

/-- The polynomial of the first `n` entries of `f`, evaluated at `x`. -/
def polyEval (f : ℕ → F) (n : ℕ) (x : F) : F := ∑ j in Finset.range n, f j * x ^ j

/-! ### Evaluation lemmas -/

theorem polyEval_add_fun (a b : ℕ → F) (n : ℕ) (x : F) :
    polyEval (fun i => a i + b i) n x = polyEval a n x + polyEval b n x := by
  simp only [polyEval, add_mul, Finset.sum_add_distrib]

theorem polyEval_congr {a b : ℕ → F} {n : ℕ} (h : ∀ i < n, a i = b i) (x : F) :
    polyEval a n x = polyEval b n x :=
  Finset.sum_congr rfl fun i hi => by rw [h i (Finset.mem_range.1 hi)]

/-- The first `m` coefficients, and `x^m` times the next `m`. -/
theorem polyEval_add_self (f : ℕ → F) (m : ℕ) (x : F) :
    polyEval f (m + m) x = polyEval f m x + x ^ m * polyEval (fun i => f (m + i)) m x := by
  simp only [polyEval, Finset.sum_range_add, Finset.mul_sum, pow_add]
  congr 1
  exact Finset.sum_congr rfl fun i _ => by ring

theorem polyEval_halves (n : ℕ) (lo hi : ℕ → F) (x : F) :
    polyEval (halves n lo hi) (n + n) x = polyEval lo n x + x ^ n * polyEval hi n x := by
  rw [polyEval_add_self]
  congr 1
  · exact polyEval_congr (fun i h => halves_of_lt lo hi h) x
  · exact congrArg _ (polyEval_congr (fun i h => halves_add lo hi h) x)

/-- A polynomial whose coefficients past the first vanish is its constant coefficient. -/
theorem polyEval_of_const {g : ℕ → F} (hg : ∀ j, 1 ≤ j → g j = 0) {n : ℕ} (hn : 1 ≤ n) (x : F) :
    polyEval g n x = g 0 := by
  obtain ⟨n, rfl⟩ := Nat.exists_eq_add_of_le' hn
  rw [polyEval, Finset.sum_range_succ']
  simp [hg _ (Nat.le_add_left 1 _)]

/-- The conversion of four coefficients is one level of `radix_big` over that of two. -/
theorem radix_two (f : ℕ → F) : radix 2 f = radixBig (radix 1) 2 f := by
  simp only [radix, radixBig, Nat.reduceSub, Nat.reducePow, halves_ofList, List.length_cons,
    List.length_nil, Nat.reduceAdd]
  simp only [halves, Nat.reduceMul, Nat.reduceLT, Nat.reduceSub, Nat.reduceAdd, ite_true, ite_false,
    List.cons_append, List.nil_append, Prod.mk.injEq]
  rw [add_comm (f 3)]
  exact ⟨rfl, rfl⟩

section Map

variable {K : Type} [Field K] (φ : F →+* K)

theorem ofList_map (l : List F) (j : ℕ) : ofList (l.map φ) j = φ (ofList l j) := by
  induction l generalizing j with
  | nil => simp [ofList]
  | cons a l ih =>
    cases j with
    | zero => simp [ofList]
    | succ j => simpa [ofList] using ih j

theorem halves_map (n : ℕ) (lo hi : ℕ → F) :
    halves n (fun i => φ (lo i)) (fun i => φ (hi i)) = fun i => φ (halves n lo hi i) := by
  funext i
  simp only [halves]
  split_ifs <;> simp

/-- In the rational functions, a polynomial in `q` with coefficients `f` is the evaluation of
    their images at `q`. -/
theorem algebraMap_sum_C_mul_pow (f : ℕ → F) (n : ℕ) (q : Polynomial F) :
    algebraMap (Polynomial F) (RatFunc F) (∑ j in Finset.range n, Polynomial.C (f j) * q ^ j) =
      polyEval (fun j => RatFunc.C (f j)) n (algebraMap (Polynomial F) (RatFunc F) q) := by
  simp [polyEval, RatFunc.algebraMap_C]

end Map

section CharTwo

variable [CharP F 2]

/-! ### One level of `radix_big`

Each written-out conversion is compared with `radix_big` over the next smaller one, entry by
entry: both sides are sums of coefficients of `f`, equal once the pairs `a + a` cancel. -/

theorem four_eq_zero_of_charTwo : (4 : F) = 0 := by
  rw [show (4 : F) = 2 * 2 by norm_num, CharTwo.two_eq_zero, mul_zero]

theorem radix_three (f : ℕ → F) : radix 3 f = radixBig (radix 2) 3 f := by
  simp only [radix, radixBig, Nat.reduceSub, Nat.reducePow, halves_ofList, List.length_cons,
    List.length_nil, Nat.reduceAdd]
  simp only [halves, Nat.reduceMul, Nat.reduceLT, Nat.reduceSub, Nat.reduceAdd, ite_true, ite_false,
    List.cons_append, List.nil_append, Prod.mk.injEq]
  refine ⟨congrArg ofList ?_, congrArg ofList ?_⟩ <;> simp only [List.cons.injEq, and_true, true_and] <;>
    repeat' apply And.intro
  all_goals rw [← sub_eq_zero]; abel_nf; try simp [zsmul_eq_mul, CharTwo.two_eq_zero]

theorem radix_four (f : ℕ → F) : radix 4 f = radixBig (radix 3) 4 f := by
  simp only [radix, radixBig, Nat.reduceSub, Nat.reducePow, halves_ofList, List.length_cons,
    List.length_nil, Nat.reduceAdd]
  simp only [halves, Nat.reduceMul, Nat.reduceLT, Nat.reduceSub, Nat.reduceAdd, ite_true, ite_false,
    List.cons_append, List.nil_append, Prod.mk.injEq]
  refine ⟨congrArg ofList ?_, congrArg ofList ?_⟩ <;> simp only [List.cons.injEq, and_true, true_and] <;>
    repeat' apply And.intro
  all_goals rw [← sub_eq_zero]; abel_nf; try simp [zsmul_eq_mul, CharTwo.two_eq_zero,
    four_eq_zero_of_charTwo]

/-- The written-out conversions are one level of `radix_big` on the next smaller one. -/
theorem radix_succ (f : ℕ → F) {mF : ℕ} (h : 1 ≤ mF) :
    radix (mF + 1) f = radixBig (radix mF) (mF + 1) f := by
  match mF, h with
  | 1, _ => exact radix_two f
  | 2, _ => exact radix_three f
  | 3, _ => exact radix_four f
  | mF + 4, _ => rfl

/-- `(x^2 + x)^(2^k) = x^(2^(k+1)) + x^(2^k)`. -/
theorem sq_add_self_pow_two_pow (x : F) (k : ℕ) :
    (x ^ 2 + x) ^ 2 ^ k = (x ^ 2 ^ k) ^ 2 + x ^ 2 ^ k := by
  rw [add_pow_char_pow, ← pow_mul, ← pow_mul, mul_comm]

/-- One level of `radix_big` in values: `f = R + (x^2 + x)^n Q`. -/
theorem polyEval_radixBig_split (f : ℕ → F) (n : ℕ) (x : F) :
    polyEval f ((n + n) + (n + n)) x =
      polyEval (halves n f (fun i => f (n + i) +
          halves n (fun i => f (3 * n + i) + f (2 * n + i)) (fun i => f (3 * n + i)) i)) (n + n) x +
        ((x ^ n) ^ 2 + x ^ n) *
          polyEval (halves n (fun i => f (3 * n + i) + f (2 * n + i)) (fun i => f (3 * n + i)))
            (n + n) x := by
  set Q := halves n (fun i => f (3 * n + i) + f (2 * n + i)) (fun i => f (3 * n + i))
  set B := polyEval (fun i => f (n + i)) n x
  set C := polyEval (fun i => f (2 * n + i)) n x
  set D := polyEval (fun i => f (3 * n + i)) n x
  have hR : polyEval (halves n f (fun i => f (n + i) + Q i)) (n + n) x =
      polyEval f n x + x ^ n * (B + (D + C)) := by
    rw [polyEval_halves, polyEval_add_fun,
      polyEval_congr (fun i h => halves_of_lt (fun i => f (3 * n + i) + f (2 * n + i)) _ h),
      polyEval_add_fun]
  have hQ : polyEval Q (n + n) x = D + C + x ^ n * D := by
    rw [polyEval_halves, polyEval_add_fun]
  have hf : polyEval f ((n + n) + (n + n)) x =
      polyEval f n x + x ^ n * B + (x ^ n) ^ 2 * C + (x ^ n) ^ 3 * D := by
    rw [polyEval_add_self, polyEval_add_self, polyEval_add_self (fun i => f (n + n + i))]
    simp only [← Nat.add_assoc, show n + n = 2 * n by ring, show 2 * n + n = 3 * n by ring, pow_add]
    ring
  rw [hf, hR, hQ]
  linear_combination (-(x ^ n * D) - x ^ n * C - (x ^ n) ^ 2 * D) * (CharTwo.two_eq_zero : (2 : F) = 0)

/-- **The radix conversion.**  For `f` of `2^(m_f)` coefficients, `m_f ≥ 1`,
    `f(x) = f0(x^2 + x) + x · f1(x^2 + x)` with `f0`, `f1` of `2^(m_f - 1)` coefficients. -/
theorem radix_eval (mF : ℕ) (f : ℕ → F) (x : F) :
    polyEval f (2 ^ (mF + 1)) x =
      polyEval (radix (mF + 1) f).1 (2 ^ mF) (x ^ 2 + x) +
        x * polyEval (radix (mF + 1) f).2 (2 ^ mF) (x ^ 2 + x) := by
  induction mF generalizing f x with
  | zero => simp [polyEval, radix, ofList, Finset.sum_range_succ]; ring
  | succ mF ih =>
    have h4 : 2 ^ (mF + 1 + 1) = (2 ^ mF + 2 ^ mF) + (2 ^ mF + 2 ^ mF) := by ring
    have h2 : 2 ^ (mF + 1) = 2 ^ mF + 2 ^ mF := by ring
    rw [radix_succ f (Nat.le_add_left 1 mF), radixBig, show mF + 1 + 1 - 2 = mF by omega, h4,
      polyEval_radixBig_split, ← h2, ih, ih, h2, polyEval_halves, polyEval_halves,
      sq_add_self_pow_two_pow]
    ring

/-! ### Sizes -/

/-- **Sizes of the halves.**  If the coefficients of `f` vanish from `c` on, those of `f0`
    vanish from `⌈c/2⌉` on and those of `f1` from `⌊c/2⌋` on. -/
theorem radix_zero (mF : ℕ) {f : ℕ → F} {c : ℕ} (hf : ∀ j, c ≤ j → f j = 0) :
    (∀ j, (c + 1) / 2 ≤ j → (radix (mF + 1) f).1 j = 0) ∧
      (∀ j, c / 2 ≤ j → (radix (mF + 1) f).2 j = 0) := by
  induction mF generalizing f c with
  | zero =>
    refine ⟨fun j hj => ?_, fun j hj => ?_⟩ <;> rcases j with _ | j <;>
      simp [radix, ofList] <;> exact hf _ (by omega)
  | succ mF ih =>
    rw [radix_succ f (Nat.le_add_left 1 mF), radixBig, show mF + 1 + 1 - 2 = mF by omega]
    set n := 2 ^ mF
    set Q := halves n (fun i => f (3 * n + i) + f (2 * n + i)) (fun i => f (3 * n + i))
    have hQ : ∀ j, c - 2 * n ≤ j → Q j = 0 := fun j hj => by
      simp only [Q, halves]
      split_ifs
      · rw [hf (3 * n + j) (by omega), hf (2 * n + j) (by omega), add_zero]
      · exact hf _ (by omega)
      · rfl
    have hR : ∀ j, c ≤ j → halves n f (fun i => f (n + i) + Q i) j = 0 := fun j hj => by
      simp only [halves]
      split_ifs
      · exact hf j hj
      · rw [hf _ (by omega), hQ _ (by omega), add_zero]
      · rfl
    obtain ⟨hQ0, hQ1⟩ := ih hQ
    obtain ⟨hR0, hR1⟩ := ih hR
    refine ⟨fun j hj => ?_, fun j hj => ?_⟩ <;> simp only [halves] <;> split_ifs
    · exact hR0 j hj
    · exact hQ0 _ (by omega)
    · rfl
    · exact hR1 j hj
    · exact hQ1 _ (by omega)
    · rfl

/-! ### As polynomials -/

section RadixMap

variable {K : Type} [Field K] [CharP K 2] (φ : F →+* K)

/-- The radix conversion commutes with field maps: it only adds coefficients. -/
theorem radix_map (mF : ℕ) (f : ℕ → F) :
    radix mF (fun j => φ (f j)) = (fun j => φ ((radix mF f).1 j), fun j => φ ((radix mF f).2 j)) := by
  induction mF generalizing f with
  | zero => simp [radix]
  | succ mF ih =>
    rcases Nat.eq_zero_or_pos mF with rfl | h
    · simp only [radix, Prod.mk.injEq]
      constructor <;> funext j <;> rw [← ofList_map] <;> rfl
    · rw [radix_succ _ h, radix_succ _ h]
      simp only [radixBig, ← map_add, halves_map, ih]

end RadixMap

/-- `f0` and `f1` have `2^(m_f - 1)` coefficients each: `radix_big` writes two halves of
    `2^(m_f - 2)`, the written-out cases lists of that length. -/
theorem radix_size (mF : ℕ) (f : ℕ → F) {j : ℕ} (hj : 2 ^ mF ≤ j) :
    (radix (mF + 1) f).1 j = 0 ∧ (radix (mF + 1) f).2 j = 0 := by
  rcases Nat.eq_zero_or_pos mF with rfl | h
  · obtain ⟨j, rfl⟩ : ∃ j', j = j' + 1 := ⟨j - 1, by simp at hj; omega⟩
    simp [radix, ofList]
  · have hn : 2 * 2 ^ (mF + 1 - 2) ≤ j := by
      rw [← pow_succ', show mF + 1 - 2 + 1 = mF by omega]; exact hj
    rw [radix_succ _ h, radixBig]
    exact ⟨halves_of_ge _ _ hn, halves_of_ge _ _ hn⟩

/-- **The radix conversion, as polynomials.**  For every `m_f ≥ 1` and every `f` of
    `2^m_f` coefficients, `f(X) = f0(X^2 + X) + X f1(X^2 + X)` in `F[X]`, with `f0` and `f1`
    of `2^(m_f - 1)` coefficients each. -/
theorem radix_poly (mF : ℕ) (f : ℕ → F) :
    ∑ j in Finset.range (2 ^ (mF + 1)), Polynomial.C (f j) * Polynomial.X ^ j =
      (∑ j in Finset.range (2 ^ mF),
          Polynomial.C ((radix (mF + 1) f).1 j) * (Polynomial.X ^ 2 + Polynomial.X) ^ j) +
        Polynomial.X * ∑ j in Finset.range (2 ^ mF),
          Polynomial.C ((radix (mF + 1) f).2 j) * (Polynomial.X ^ 2 + Polynomial.X) ^ j ∧
    ∀ j, 2 ^ mF ≤ j → (radix (mF + 1) f).1 j = 0 ∧ (radix (mF + 1) f).2 j = 0 := by
  refine ⟨?_, fun j hj => radix_size mF f hj⟩
  -- evaluate at the indeterminate of `F(X)`, a field of characteristic 2 containing `F[X]`
  haveI : CharP (RatFunc F) 2 :=
    charP_of_injective_algebraMap (algebraMap F (RatFunc F)).injective 2
  have h := radix_eval mF (fun j => RatFunc.C (f j)) RatFunc.X
  rw [radix_map] at h
  apply RatFunc.algebraMap_injective F
  rw [RingHom.map_add, RingHom.map_mul, algebraMap_sum_C_mul_pow, algebraMap_sum_C_mul_pow,
    algebraMap_sum_C_mul_pow, RingHom.map_add, RingHom.map_pow, RatFunc.algebraMap_X]
  exact h

theorem radix_poly_zmod_two :
    CharP (ZMod 2) 2 ∧
    (∑ j in Finset.range (2 ^ (1 + 1)), Polynomial.C ((j : ZMod 2)) * Polynomial.X ^ j =
      (∑ j in Finset.range (2 ^ 1), Polynomial.C ((radix (1 + 1) fun j : ℕ => (j : ZMod 2)).1 j) *
          (Polynomial.X ^ 2 + Polynomial.X) ^ j) +
        Polynomial.X * ∑ j in Finset.range (2 ^ 1),
          Polynomial.C ((radix (1 + 1) fun j : ℕ => (j : ZMod 2)).2 j) *
            (Polynomial.X ^ 2 + Polynomial.X) ^ j ∧
    ∀ j, 2 ^ 1 ≤ j → (radix (1 + 1) fun j : ℕ => (j : ZMod 2)).1 j = 0 ∧
      (radix (1 + 1) fun j : ℕ => (j : ZMod 2)).2 j = 0) :=
  ⟨inferInstance, radix_poly 1 fun j => (j : ZMod 2)⟩

end CharTwo

end Leancrypto.Hqc
