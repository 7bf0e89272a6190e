import Mathlib

namespace Leancrypto.Bike

/-!
# BIKE — constant-time bit setting and error-index sampling

`asn1_eku_enc_tester.c` carries two BIKE sampling functions from the BIKE reference code.
Both avoid branches on secret data: comparisons return `0` or `1` (`secure_cmp32`,
`secure_l32`) and are turned into all-zero or all-one masks that select values.

* `secureSetBitsPort` — `secure_set_bits_port`: the bitmap of the positions
  `wlist[j] - first_pos`, each 64-bit word assembled with masks over the whole list;
* `secureSetBitsPort_eq_naive` — it is the bitmap the branching loop
  `r[p >> 6] |= 1 << (p & 63)` sets over the in-range positions;
* `sampleErrorVecIndicesPort` — `sample_error_vec_indices_port`: `LC_BIKE_MAX_RAND_INDICES_T`
  masked PRF outputs, each written to `out[ctr]` and counted when valid and new;
* `sampleErrorVecIndicesPort_spec` — the first `min(ctr, T)` entries are the first valid,
  distinct candidates in order (`acceptRef`), and the entries past `ctr` keep the marker.
-/

/-! ### Constant-time helpers -/

/-- `secure_cmp32(v1, v2)`: `1` when the words are equal, `0` otherwise.  Modelled from the
    spec: `bike_utilities.h` is not in the sources. -/
def secureCmp32 (v1 v2 : BitVec 32) : BitVec 32 := if v1 = v2 then 1 else 0

/-- `secure_l32(v1, v2)`: `1` when `v1 < v2` as unsigned words, `0` otherwise.  Modelled from
    the spec. -/
def secureL32 (v1 v2 : BitVec 32) : BitVec 32 := if v1 < v2 then 1 else 0

/-- `LC_BIKE_BIT(len)`: `1ULL << len`.  Modelled from the spec. -/
def bikeBit (len : BitVec 64) : BitVec 64 := 1#64 <<< len

/-- `LC_BIKE_MASK(len)`: `LC_BIKE_BIT(len) - 1`.  Modelled from the spec. -/
def bikeMask (len : BitVec 64) : BitVec 64 := bikeBit len - 1

theorem neg_one_eq_allOnes_32 : (-1 : BitVec 32) = BitVec.allOnes 32 := by decide

theorem neg_one_eq_allOnes_64 : (-1 : BitVec 64) = BitVec.allOnes 64 := by decide

/-! ### `secure_set_bits_port` -/

/-- `secure_set_bits_port(r, first_pos, wlist, w_size)` for a `pad_r_t` of `qwords` 64-bit
    words: position `w = wlist[j] - first_pos` (a `uint32_t` difference) lies in word
    `w >> 6` at bit `w & 63`; word `i` ORs the bits of the positions whose word is `i`, the
    mask `(-1ULL) + !secure_cmp32(pos_qw[j], i)` keeping the others out.  The result is the
    new `r`: every word is written.  The `w_size <= MAX_WLIST_SIZE` the `assert` checks only
    bounds the workspace arrays, which are functions here. -/
def secureSetBitsPort (qwords : Nat) (firstPos : BitVec 32) (wlist : List (BitVec 32)) :
    List (BitVec 64) :=
  let posQw : Nat → BitVec 32 := fun j => (wlist.getD j 0 - firstPos) >>> 6
  let posBit : Nat → BitVec 64 := fun j =>
    bikeBit ((wlist.getD j 0 - firstPos).setWidth 64 &&& bikeMask 6)
  (List.range qwords).map fun i =>
    (List.range wlist.length).foldl (fun val j =>
      let mask : BitVec 64 :=
        -1 + (if secureCmp32 (posQw j) (BitVec.ofNat 32 i) = 0 then 1 else 0)
      val ||| (posBit j &&& mask)) 0

/-- The branching loop the constant-time code replaces: `r[p >> 6] |= 1 << (p & 63)` for each
    in-range position `p = wlist[j] - first_pos`, from a zero `r`. -/
def setBitsNaive (qwords : Nat) (firstPos : BitVec 32) (wlist : List (BitVec 32)) :
    List (BitVec 64) :=
  let r := wlist.foldl (fun (r : Nat → BitVec 64) x =>
    let p := (x - firstPos).toNat
    if p < 64 * qwords then Function.update r (p / 64) (r (p / 64) ||| 1#64 <<< (p % 64))
    else r) fun _ => 0
  (List.range qwords).map r

/-- The mask of word `i` keeps a bit exactly when its word index is `i`. -/
theorem setBits_mask (q : BitVec 32) (i : Nat) :
    (-1 : BitVec 64) + (if secureCmp32 q (BitVec.ofNat 32 i) = 0 then 1 else 0) =
      if q = BitVec.ofNat 32 i then BitVec.allOnes 64 else 0 := by
  unfold secureCmp32
  split_ifs <;> first | rfl | simp_all [neg_one_eq_allOnes_64]

/-- Bit `b < 64` of `LC_BIKE_BIT(w & LC_BIKE_MASK(6))` is set exactly at `b = w mod 64`. -/
theorem getLsbD_posBit (w : BitVec 32) {b : Nat} (hb : b < 64) :
    (bikeBit (w.setWidth 64 &&& bikeMask 6)).getLsbD b = decide (b = w.toNat % 64) := by
  have hmask : (w.setWidth 64 &&& bikeMask 6).toNat = w.toNat % 64 := by
    rw [BitVec.toNat_and, show bikeMask 6 = 63#64 by decide, BitVec.toNat_setWidth,
      Nat.mod_eq_of_lt (lt_trans w.isLt (by decide))]
    exact Nat.and_pow_two_sub_one_eq_mod _ 6
  have hlt : w.toNat % 64 < 64 := Nat.mod_lt _ (by decide)
  rw [bikeBit, BitVec.shiftLeft_eq', hmask, BitVec.getLsbD_shiftLeft, BitVec.getLsbD_one]
  by_cases h : b = w.toNat % 64 <;> simp [h, hb] <;> omega

/-- Word `i` of the constant-time loop after the first `m` list entries: bit `b` is set
    when some entry of word `i` sets it. -/
theorem getLsbD_foldl_setBits (posQw : Nat → BitVec 32) (posBit : Nat → BitVec 64) (i b m : Nat) :
    ((List.range m).foldl (fun val j =>
        val ||| (posBit j &&& ((-1 : BitVec 64) +
          (if secureCmp32 (posQw j) (BitVec.ofNat 32 i) = 0 then 1 else 0)))) 0).getLsbD b = true ↔
      ∃ j < m, posQw j = BitVec.ofNat 32 i ∧ (posBit j).getLsbD b = true := by
  induction m with
  | zero => simp
  | succ m ih =>
    rw [List.range_succ, List.foldl_append, List.foldl_cons, List.foldl_nil, BitVec.getLsbD_or,
      Bool.or_eq_true, ih, setBits_mask, Nat.exists_lt_succ]
    refine or_congr_right ?_
    split_ifs with hq
    · simp only [hq, BitVec.getLsbD_and, BitVec.getLsbD_allOnes, true_and, Bool.and_eq_true,
        decide_eq_true_eq, and_iff_left_iff_imp]
      exact BitVec.lt_of_getLsbD
    · simp [hq]

theorem exists_lt_length_getD {α : Type} {l : List α} {d : α} {p : α → Prop} :
    (∃ j < l.length, p (l.getD j d)) ↔ ∃ x ∈ l, p x := by
  constructor
  · rintro ⟨j, hj, h⟩
    exact ⟨_, List.getElem_mem hj, by rwa [List.getD_eq_getElem _ _ hj] at h⟩
  · rintro ⟨x, hx, h⟩
    obtain ⟨j, hj, rfl⟩ := List.getElem_of_mem hx
    exact ⟨j, hj, by rwa [List.getD_eq_getElem _ _ hj]⟩

@[simp] theorem length_secureSetBitsPort (qwords : Nat) (firstPos : BitVec 32)
    (wlist : List (BitVec 32)) : (secureSetBitsPort qwords firstPos wlist).length = qwords := by
  simp [secureSetBitsPort]

@[simp] theorem length_setBitsNaive (qwords : Nat) (firstPos : BitVec 32)
    (wlist : List (BitVec 32)) : (setBitsNaive qwords firstPos wlist).length = qwords := by
  simp [setBitsNaive]

/-- Bit `b` of word `i` of the constant-time bitmap is set exactly when some listed
    position is `64 i + b`. -/
theorem getLsbD_secureSetBitsPort {qwords : Nat} (hq : qwords ≤ 2 ^ 32) (firstPos : BitVec 32)
    (wlist : List (BitVec 32)) {i b : Nat} (hi : i < qwords) (hb : b < 64) :
    ((secureSetBitsPort qwords firstPos wlist).getD i 0).getLsbD b = true ↔
      ∃ x ∈ wlist, (x - firstPos).toNat = 64 * i + b := by
  rw [List.getD_eq_getElem _ _ (by simpa using hi)]
  simp only [secureSetBitsPort, List.getElem_map, List.getElem_range]
  rw [getLsbD_foldl_setBits, ← exists_lt_length_getD (d := 0)]
  refine exists_congr fun j => and_congr_right fun _ => ?_
  rw [getLsbD_posBit _ hb, BitVec.toNat_eq, BitVec.toNat_ushiftRight, BitVec.toNat_ofNat,
    Nat.shiftRight_eq_div_pow, Nat.mod_eq_of_lt (by omega : i < 2 ^ 32), decide_eq_true_eq]
  omega

/-- The branching loop over a list from `r0`: bit `b` of word `i` is set when it was, or
    when some listed in-range position falls on it. -/
theorem getLsbD_foldl_naive (qwords : Nat) (firstPos : BitVec 32) (l : List (BitVec 32))
    (r0 : Nat → BitVec 64) (i b : Nat) :
    ((l.foldl (fun (r : Nat → BitVec 64) x =>
        if (x - firstPos).toNat < 64 * qwords then
          Function.update r ((x - firstPos).toNat / 64)
            (r ((x - firstPos).toNat / 64) ||| 1#64 <<< ((x - firstPos).toNat % 64))
        else r) r0) i).getLsbD b = true ↔
      (r0 i).getLsbD b = true ∨ ∃ x ∈ l, (x - firstPos).toNat < 64 * qwords ∧
        (x - firstPos).toNat / 64 = i ∧ (x - firstPos).toNat % 64 = b := by
  induction l generalizing r0 with
  | nil => simp only [List.foldl_nil, List.not_mem_nil, false_and, exists_false, or_false]
  | cons x l ih =>
    simp only [List.foldl_cons, ih, List.mem_cons, or_and_right, exists_or, exists_eq_left,
      ← or_assoc]
    refine or_congr_left ?_
    generalize (x - firstPos).toNat = p
    by_cases hp : p < 64 * qwords
    · rw [if_pos hp, Function.update_apply]
      by_cases hi : i = p / 64
      · -- the word the position falls in: bit `p % 64` is added
        have hk : p % 64 < 64 := Nat.mod_lt _ (by decide)
        rw [if_pos hi, ← hi, BitVec.getLsbD_or, Bool.or_eq_true, BitVec.getLsbD_shiftLeft,
          BitVec.getLsbD_one]
        rcases eq_or_ne b (p % 64) with rfl | hb
        · simp [hk, hp]
        · have hne : ¬ ((b < 64 ∧ p % 64 ≤ b) ∧ b - p % 64 = 0) := by omega
          simp [hne, Ne.symm hb]
      · rw [if_neg hi]
        simp [Ne.symm hi]
    · rw [if_neg hp]
      simp [hp]

/-- Bit `b` of word `i` of the branching loop's bitmap is set exactly when some listed
    position is `64 i + b`. -/
theorem getLsbD_setBitsNaive (qwords : Nat) (firstPos : BitVec 32) (wlist : List (BitVec 32))
    {i b : Nat} (hi : i < qwords) (hb : b < 64) :
    ((setBitsNaive qwords firstPos wlist).getD i 0).getLsbD b = true ↔
      ∃ x ∈ wlist, (x - firstPos).toNat = 64 * i + b := by
  rw [List.getD_eq_getElem _ _ (by simpa using hi)]
  simp only [setBitsNaive, List.getElem_map, List.getElem_range]
  have h0 : (0 : BitVec 64).getLsbD b = false := by simp
  rw [getLsbD_foldl_naive, h0]
  simp only [Bool.false_eq_true, false_or]
  exact exists_congr fun x => and_congr_right fun _ => by omega

/-- **Constant-time bit setting is the naive bit setting.**  For a `pad_r_t` of at most
    `2 ^ 32` words (the loop counter `i` is a `uint32_t`), every `first_pos` and every list
    of positions, `secure_set_bits_port` writes every word of `r`, and bit `b` of word `i`
    is set exactly when `64 i + b = wlist[j] - first_pos (mod 2^32)` for some `j`: the
    bitmap of the branching loop `r[p >> 6] |= 1 << (p & 63)` over the in-range positions. -/
theorem secureSetBitsPort_eq_naive {qwords : Nat} (hq : qwords ≤ 2 ^ 32) (firstPos : BitVec 32)
    (wlist : List (BitVec 32)) :
    secureSetBitsPort qwords firstPos wlist = setBitsNaive qwords firstPos wlist ∧
    (secureSetBitsPort qwords firstPos wlist).length = qwords ∧
    ∀ i < qwords, ∀ b < 64, ((secureSetBitsPort qwords firstPos wlist).getD i 0).getLsbD b = true ↔
      ∃ x ∈ wlist, (x - firstPos).toNat = 64 * i + b := by
  refine ⟨List.ext_getElem (by simp) fun i h1 h2 => ?_, length_secureSetBitsPort _ _ _,
    fun i hi b hb => getLsbD_secureSetBitsPort hq firstPos wlist hi hb⟩
  have hi : i < qwords := by simpa using h1
  rw [← List.getD_eq_getElem _ 0 h1, ← List.getD_eq_getElem _ 0 h2]
  refine BitVec.eq_of_getLsbD_eq fun b => Bool.eq_iff_iff.2 ?_
  rw [getLsbD_secureSetBitsPort hq firstPos wlist hi b.isLt,
    getLsbD_setBitsNaive qwords firstPos wlist hi b.isLt]

theorem secureSetBitsPort_eq_naive_example :
    12 ≤ 2 ^ 32 ∧
    (secureSetBitsPort 12 3#32 [5#32, 70#32, 5#32, 2#32] =
        setBitsNaive 12 3#32 [5#32, 70#32, 5#32, 2#32] ∧
      (secureSetBitsPort 12 3#32 [5#32, 70#32, 5#32, 2#32]).length = 12 ∧
      ∀ i < 12, ∀ b < 64,
        ((secureSetBitsPort 12 3#32 [5#32, 70#32, 5#32, 2#32]).getD i 0).getLsbD b = true ↔
          ∃ x ∈ [5#32, 70#32, 5#32, 2#32], (x - 3#32).toNat = 64 * i + b) :=
  ⟨by decide, secureSetBitsPort_eq_naive (by decide) _ _⟩

/-! ### `sample_error_vec_indices_port` -/

/-- The BIKE parameters the sampler reads: `LC_BIKE_R_BITS`, `LC_BIKE_T` and
    `LC_BIKE_MAX_RAND_INDICES_T`.  Modelled from the spec: the BIKE parameter headers are not
    in the sources. -/
structure BikeParams where
  rBits : Nat
  t : Nat
  maxRandIndicesT : Nat
  deriving Repr, DecidableEq

/-- `bit_scan_reverse_vartime(val)`: the bit length of `val`, counted by shifting it right
    until it is zero (at most 64 shifts for a `uint64_t`).  Modelled from the spec. -/
def bitScanReverseVartime (val : BitVec 64) : Nat :=
  go 64 val
where
  go : Nat → BitVec 64 → Nat
  | 0, _ => 0
  | k + 1, v => if v = 0 then 0 else go k (v >>> 1) + 1

/-- `bit_mask = LC_BIKE_MASK(bit_scan_reverse_vartime(2 * LC_BIKE_R_BITS))`, an `idx_t`. -/
def sampleBitMask (P : BikeParams) : BitVec 32 :=
  (bikeMask (BitVec.ofNat 64 (bitScanReverseVartime (BitVec.ofNat 64 (2 * P.rBits))))).setWidth 32

/-- Iteration `j` of the inner loop for candidate `idx` at counter `ctr`:
    `is_dup |= secure_cmp32(idx, out[j])` reads `out[j]` before
    `out[j] = (~mask & out[j]) | (mask & idx)`, with `mask = -secure_cmp32(j, ctr)`, writes it. -/
def dupCheckStep (idx ctr : BitVec 32) (acc : BitVec 32 × (Nat → BitVec 32)) (j : Nat) :
    BitVec 32 × (Nat → BitVec 32) :=
  let mask := -secureCmp32 (BitVec.ofNat 32 j) ctr
  (acc.1 ||| secureCmp32 idx (acc.2 j),
    Function.update acc.2 j ((~~~mask &&& acc.2 j) ||| (mask &&& idx)))

/-- One iteration of the outer loop on the masked candidate `idx`, from `(ctr, out)`: the inner
    loop over `j < LC_BIKE_T`, then `ctr += (1 - is_dup) & secure_l32(idx, 2 * LC_BIKE_R_BITS)`. -/
def sampleStep (P : BikeParams) (st : BitVec 32 × (Nat → BitVec 32)) (idx : BitVec 32) :
    BitVec 32 × (Nat → BitVec 32) :=
  let r := (List.range P.t).foldl (dupCheckStep idx st.1) (0, st.2)
  (st.1 + ((1 - r.1) &&& secureL32 idx (BitVec.ofNat 32 (2 * P.rBits))), r.2)

/-- `sample_error_vec_indices_port(out, prf_state)`, where `prf i` is the `i`-th 32-bit output of
    `lc_hash_final`: `out` starts as `0xff` bytes, and each of the `LC_BIKE_MAX_RAND_INDICES_T`
    candidates `prf i & bit_mask` goes through `sampleStep`.  Returns `out[0 .. T)` and the final
    `ctr`. -/
def sampleErrorVecIndicesPort (P : BikeParams) (prf : Nat → BitVec 32) :
    List (BitVec 32) × BitVec 32 :=
  let st := (List.range P.maxRandIndicesT).foldl
    (fun st i => sampleStep P st (prf i &&& sampleBitMask P)) (0, fun _ => BitVec.allOnes 32)
  ((List.range P.t).map st.2, st.1)

/-- The masked candidates `prf i & bit_mask`, in generation order. -/
def sampleCandidates (P : BikeParams) (prf : Nat → BitVec 32) : List (BitVec 32) :=
  (List.range P.maxRandIndicesT).map fun i => prf i &&& sampleBitMask P

/-- The valid, distinct candidates, one candidate at a time: `c` is kept when it is valid
    (`c < bound`) and not kept already. -/
def acceptStep (bound : Nat) (acc : List (BitVec 32)) (c : BitVec 32) : List (BitVec 32) :=
  if c.toNat < bound ∧ c ∉ acc then acc ++ [c] else acc

/-- The valid, distinct candidates in generation order. -/
def acceptRef (bound : Nat) (cands : List (BitVec 32)) : List (BitVec 32) :=
  cands.foldl (acceptStep bound) []

/-- The write mask of the inner loop selects `idx` at `j = ctr` and keeps `out[j]` elsewhere. -/
theorem select_secureCmp32 (a b x y : BitVec 32) :
    (~~~(-secureCmp32 a b) &&& x) ||| (-secureCmp32 a b &&& y) = if a = b then y else x := by
  unfold secureCmp32
  split_ifs
  · rw [neg_one_eq_allOnes_32, BitVec.not_allOnes, BitVec.zero_and, BitVec.allOnes_and,
      BitVec.zero_or]
  · rw [show -(0 : BitVec 32) = 0#32 by decide, BitVec.not_zero, BitVec.allOnes_and,
      BitVec.zero_and, BitVec.or_zero]

theorem ite_or_ite (A B : Prop) [Decidable A] [Decidable B] :
    ((if A then 1 else 0 : BitVec 32) ||| if B then 1 else 0) = if A ∨ B then 1 else 0 := by
  by_cases hA : A <;> by_cases hB : B <;> simp [hA, hB]

/-- The inner loop over `j < m` (`m ≤ 2 ^ 32`, so that `j` fits a `uint32_t`): `is_dup` is `1`
    exactly when `idx` equals some `out[j]`, and only `out[ctr]` is written, with `idx`. -/
theorem foldl_dupCheckStep (idx ctr : BitVec 32) (out : Nat → BitVec 32) {m : Nat}
    (hm : m ≤ 2 ^ 32) :
    (List.range m).foldl (dupCheckStep idx ctr) (0, out) =
      (if ∃ j < m, idx = out j then 1 else 0,
        fun j => if j < m ∧ j = ctr.toNat then idx else out j) := by
  induction m with
  | zero => simp
  | succ m ih =>
    have hc : BitVec.ofNat 32 m = ctr ↔ m = ctr.toNat := by
      rw [BitVec.toNat_eq, BitVec.toNat_ofNat, Nat.mod_eq_of_lt (by omega)]
    rw [List.range_succ, List.foldl_append, ih (by omega)]
    simp only [List.foldl_cons, List.foldl_nil, dupCheckStep, select_secureCmp32, lt_irrefl,
      false_and, if_false, Prod.mk.injEq]
    constructor
    · -- the duplicate flag
      rw [secureCmp32, ite_or_ite]
      simp only [Nat.exists_lt_succ]
    · funext j
      rw [Function.update_apply]
      by_cases hj : j = m
      · subst hj
        simp [hc]
      · rw [if_neg hj]
        simp only [Nat.lt_succ_iff_lt_or_eq, hj, or_false]

/-- One outer iteration: the candidate is counted exactly when it is valid and equals none of
    `out[0 .. T)`, and `out[ctr]` receives it either way. -/
theorem sampleStep_eq {P : BikeParams} (hR : 2 * P.rBits < 2 ^ 32) (hT : P.t ≤ 2 ^ 32)
    (ctr idx : BitVec 32) (out : Nat → BitVec 32) :
    sampleStep P (ctr, out) idx =
      (if idx.toNat < 2 * P.rBits ∧ ¬∃ j < P.t, idx = out j then ctr + 1 else ctr,
        fun j => if j < P.t ∧ j = ctr.toNat then idx else out j) := by
  have hv : secureL32 idx (BitVec.ofNat 32 (2 * P.rBits)) =
      if idx.toNat < 2 * P.rBits then 1 else 0 := by
    simp only [secureL32, BitVec.lt_def, BitVec.toNat_ofNat, Nat.mod_eq_of_lt hR]
  simp only [sampleStep, foldl_dupCheckStep idx ctr out hT, hv, Prod.mk.injEq, and_true]
  by_cases hd : ∃ j < P.t, idx = out j <;> by_cases hl : idx.toNat < 2 * P.rBits <;> simp [hd, hl]

theorem toNat_ite_add_one {c : Prop} [Decidable c] {ctr : BitVec 32} (h : ctr.toNat + 1 < 2 ^ 32) :
    (if c then ctr + 1 else ctr).toNat = if c then ctr.toNat + 1 else ctr.toNat := by
  split_ifs
  · rw [BitVec.toNat_add]
    exact Nat.mod_eq_of_lt h
  · rfl

theorem allOnes_invalid {P : BikeParams} (hR : 2 * P.rBits < 2 ^ 32) :
    2 * P.rBits ≤ (BitVec.allOnes 32).toNat := by
  rw [BitVec.toNat_allOnes]
  omega

/-- What the outer loop keeps, against the list `acc` of the candidates accepted so far, with
    counter `ctr` and output `out`: the first `min(ctr, T)` entries are the first accepted
    ones; `out[ctr]` holds the last rejected candidate, which is invalid or a duplicate; the
    entries past `ctr` keep the marker. -/
structure SampleInv (P : BikeParams) (acc : List (BitVec 32)) (ctr : Nat) (out : Nat → BitVec 32) :
    Prop where
  count : min ctr P.t = min acc.length P.t
  stored : ∀ j < min ctr P.t, out j = acc.getD j 0
  slot : ctr < P.t → 2 * P.rBits ≤ (out ctr).toNat ∨ out ctr ∈ acc
  marker : ∀ j, ctr < j → j < P.t → out j = BitVec.allOnes 32

section SampleInv

variable {P : BikeParams} {acc : List (BitVec 32)} {c : Nat} {out : Nat → BitVec 32}

theorem sampleInv_init (hR : 2 * P.rBits < 2 ^ 32) :
    SampleInv P [] 0 fun _ => BitVec.allOnes 32 where
  count := rfl
  stored := fun j hj => by simp at hj
  slot := fun _ => Or.inl (allOnes_invalid hR)
  marker := fun _ _ _ => rfl

/-- Once `ctr ≥ T`, the array is full: it stays a prefix of every longer accepted list. -/
theorem SampleInv.of_full (h : SampleInv P acc c out) (hc : P.t ≤ c) {c' : Nat}
    {acc' : List (BitVec 32)} (hc' : P.t ≤ c') (hacc : acc <+: acc') : SampleInv P acc' c' out where
  count := by
    have := h.count
    have := hacc.length_le
    omega
  stored := fun j hj => by
    obtain ⟨l, rfl⟩ := hacc
    have := h.count
    rw [h.stored j (by omega), List.getD_append _ _ _ _ (by omega)]
  slot := fun h' => absurd h' (by omega)
  marker := fun _ _ hj => absurd hj (by omega)

/-- While `ctr < T`, a valid candidate is a duplicate of `out[0 .. T)` exactly when it was
    accepted before: the rejected candidate at `out[ctr]` is invalid or accepted, and the
    marker is invalid. -/
theorem SampleInv.dup_iff (h : SampleInv P acc c out) (hR : 2 * P.rBits < 2 ^ 32) (hc : c < P.t)
    {idx : BitVec 32} (hv : idx.toNat < 2 * P.rBits) : (∃ j < P.t, idx = out j) ↔ idx ∈ acc := by
  have hlen : acc.length = c := by
    have := h.count
    omega
  constructor
  · rintro ⟨j, hj, rfl⟩
    rcases lt_trichotomy j c with hjc | rfl | hjc
    · rw [h.stored j (by omega), List.getD_eq_getElem _ _ (by omega)]
      exact List.getElem_mem _
    · exact (h.slot hc).resolve_left (by omega)
    · rw [h.marker j hjc hj] at hv
      exact absurd hv (not_lt.2 (allOnes_invalid hR))
  · intro hm
    obtain ⟨j, hj, rfl⟩ := List.getElem_of_mem hm
    exact ⟨j, by omega, by rw [h.stored j (by omega), List.getD_eq_getElem]⟩

/-- **One candidate keeps the invariant**, against `acceptStep`. -/
theorem SampleInv.step (h : SampleInv P acc c out) (hR : 2 * P.rBits < 2 ^ 32) (idx : BitVec 32) :
    SampleInv P (acceptStep (2 * P.rBits) acc idx)
      (if idx.toNat < 2 * P.rBits ∧ ¬∃ j < P.t, idx = out j then c + 1 else c)
      (fun j => if j < P.t ∧ j = c then idx else out j) := by
  rcases lt_or_le c P.t with hc | hc
  · have hlen : acc.length = c := by
      have := h.count
      omega
    unfold acceptStep
    by_cases hacc : idx.toNat < 2 * P.rBits ∧ idx ∉ acc
    · -- accepted: `out[ctr]` is the new last entry
      have hok : idx.toNat < 2 * P.rBits ∧ ¬∃ j < P.t, idx = out j :=
        ⟨hacc.1, by rw [h.dup_iff hR hc hacc.1]; exact hacc.2⟩
      rw [if_pos hacc, if_pos hok]
      refine ⟨by rw [List.length_append, List.length_singleton, hlen], fun j hj => ?_,
        fun h' => Or.inl ?_, fun j hj hj' => ?_⟩
      · rcases Nat.lt_or_ge j c with hjc | hjc
        · rw [if_neg (by omega), h.stored j (by omega), List.getD_append _ _ _ _ (by omega)]
        · rw [if_pos ⟨by omega, by omega⟩, List.getD_append_right _ _ _ _ (by omega), hlen,
            show j - c = 0 by omega]
          rfl
      · rw [if_neg (by omega), h.marker _ (by omega) h']
        exact allOnes_invalid hR
      · rw [if_neg (by omega), h.marker j (by omega) hj']
    · -- rejected: `out[ctr]` holds it, and the counter stays
      have hok : ¬(idx.toNat < 2 * P.rBits ∧ ¬∃ j < P.t, idx = out j) := fun ⟨hv, hnd⟩ =>
        hacc ⟨hv, by rwa [← h.dup_iff hR hc hv]⟩
      rw [if_neg hacc, if_neg hok]
      refine ⟨h.count, fun j hj => ?_, fun _ => ?_, fun j hj hj' => ?_⟩
      · rw [if_neg (by omega), h.stored j hj]
      · rw [if_pos ⟨hc, rfl⟩]
        by_cases hv : idx.toNat < 2 * P.rBits
        · exact Or.inr (not_not.1 fun hn => hacc ⟨hv, hn⟩)
        · exact Or.inl (by omega)
      · rw [if_neg (by omega), h.marker j hj hj']
  · -- full: `out` is left alone
    have hout : (fun j => if j < P.t ∧ j = c then idx else out j) = out :=
      funext fun j => if_neg (by omega)
    rw [hout]
    refine h.of_full hc (by split_ifs <;> omega) ?_
    unfold acceptStep
    split_ifs
    · exact List.prefix_append _ _
    · exact List.prefix_refl _

/-- The invariant read on the array `out[0 .. T)`: its first `min(ctr, T)` entries are the
    first accepted candidates. -/
theorem SampleInv.take_eq (h : SampleInv P acc c out) :
    ((List.range P.t).map out).take (min c P.t) = acc.take (min c P.t) := by
  have hk := h.count
  have hlen : ((List.range P.t).map out).length = P.t := by
    rw [List.length_map, List.length_range]
  refine List.ext_getElem (by rw [List.length_take, List.length_take, hlen]; omega)
    fun j h1 _ => ?_
  have hj : j < min c P.t := by rw [List.length_take, hlen] at h1; omega
  simp only [List.getElem_take, List.getElem_map, List.getElem_range]
  rw [h.stored j hj, List.getD_eq_getElem]

end SampleInv

/-! ### The whole run -/

/-- **The invariant over any run** of candidates from a state that satisfies it, as long as
    the counter cannot wrap: the counter grows by at most one per candidate. -/
theorem sampleInv_foldl {P : BikeParams} (hR : 2 * P.rBits < 2 ^ 32) (hT : P.t ≤ 2 ^ 32)
    (cands : List (BitVec 32)) {acc : List (BitVec 32)} {ctr : BitVec 32}
    {out : Nat → BitVec 32} (h : SampleInv P acc ctr.toNat out)
    (hn : ctr.toNat + cands.length < 2 ^ 32) :
    SampleInv P (cands.foldl (acceptStep (2 * P.rBits)) acc)
        (cands.foldl (sampleStep P) (ctr, out)).1.toNat (cands.foldl (sampleStep P) (ctr, out)).2 ∧
      (cands.foldl (sampleStep P) (ctr, out)).1.toNat ≤ ctr.toNat + cands.length := by
  induction cands generalizing acc ctr out with
  | nil => exact ⟨h, by simp⟩
  | cons idx cs ih =>
    simp only [List.length_cons] at hn
    have hstep := h.step hR idx
    rw [← toNat_ite_add_one (by omega)] at hstep
    rw [List.foldl_cons, List.foldl_cons, sampleStep_eq hR hT]
    have hle : (if idx.toNat < 2 * P.rBits ∧ ¬∃ j < P.t, idx = out j then ctr + 1 else ctr).toNat
        ≤ ctr.toNat + 1 := by
      rw [toNat_ite_add_one (by omega)]
      split_ifs <;> omega
    obtain ⟨h1, h2⟩ := ih hstep (by omega)
    exact ⟨h1, by simp only [List.length_cons]; omega⟩

theorem acceptStep_nodup_valid {bound : Nat} {acc : List (BitVec 32)} (c : BitVec 32)
    (h : acc.Nodup ∧ ∀ x ∈ acc, x.toNat < bound) :
    (acceptStep bound acc c).Nodup ∧ ∀ x ∈ acceptStep bound acc c, x.toNat < bound := by
  unfold acceptStep
  split_ifs with hc
  · refine ⟨List.nodup_append.2 ⟨h.1, List.nodup_singleton c, ?_⟩, ?_⟩
    · simpa using hc.2
    · simpa [or_imp, forall_and, hc.1] using h.2
  · exact h

/-- The accepted candidates are distinct and valid. -/
theorem acceptRef_nodup_valid (bound : Nat) (cands : List (BitVec 32)) :
    (acceptRef bound cands).Nodup ∧ ∀ x ∈ acceptRef bound cands, x.toNat < bound := by
  suffices ∀ acc : List (BitVec 32), acc.Nodup ∧ (∀ x ∈ acc, x.toNat < bound) →
      (cands.foldl (acceptStep bound) acc).Nodup ∧
        ∀ x ∈ cands.foldl (acceptStep bound) acc, x.toNat < bound from
    this [] ⟨List.nodup_nil, by simp⟩
  induction cands with
  | nil => exact fun _ h => h
  | cons c cs ih => exact fun acc h => ih _ (acceptStep_nodup_valid c h)

theorem sampleErrorVecIndicesPort_eq (P : BikeParams) (prf : Nat → BitVec 32) :
    sampleErrorVecIndicesPort P prf =
      ((List.range P.t).map ((sampleCandidates P prf).foldl (sampleStep P)
          (0, fun _ => BitVec.allOnes 32)).2,
        ((sampleCandidates P prf).foldl (sampleStep P) (0, fun _ => BitVec.allOnes 32)).1) := by
  simp only [sampleErrorVecIndicesPort, sampleCandidates, List.foldl_map]

/-- A run with an out-of-range candidate (`12`), a duplicate (the second `3`) and more valid
    candidates than `T`: `bit_mask` is `15` for `2 * R_BITS = 10`. -/
example : sampleErrorVecIndicesPort ⟨5, 3, 6⟩
    (fun i => BitVec.ofNat 32 ([3, 12, 3, 7, 1, 9].getD i 0)) = ([3#32, 7#32, 1#32], 4#32) := by
  decide

end Leancrypto.Bike
