import Mathlib
import Leancrypto.SlhDsa.TreeHash

namespace Leancrypto.SideChannel

/-!
# Constant-time conditional moves (`sidechannel_resistantce.h`)

The header replaces `if (b) r = x` by masking: `b = -b` turns the condition bit into an
all-zero or all-one mask, and `r ^= b & (r ^ x)` then leaves `r` or turns it into `x`.

* `cmov` — the byte-array move, which also XORs the byte read from the volatile
  `optimization_blocker_int8` into every byte it touches;
* `cmovWord` — the word moves `cmov_int16`, `cmov_uint32` and `cmov_int`, one definition over
  the width of the word and the width of the condition `b`.

Results:

* `cmov_eq` — for `b ∈ {0, 1}`, `cmov` is the branching move XORed with the blocker byte on
  the `len` bytes it touches: **a move exactly when the blocker reads `0`**;
* `cmovWord_zero_one` — a word move whose condition is at least as wide as the word is the
  branching move; `cmovInt_one` — `cmov_int`, whose condition is a `uint16_t`, **copies only
  the low 16 bits of `v`**;
* `cmovAuthPath_eq_cmov` — the `auth_path` update of `treehashx1`, modelled in
  `Leancrypto.SlhDsa` as an assignment under a condition, is the `cmov` the code calls.
-/

/-! ### The code -/

/-- `cmov(r, x, len, b)`: after `b = -b`, `r[i] ^= (b & (r[i] ^ x[i])) ^ opt_blocker` for
    `i < len`; each pass reads and writes `r[i]` only.  `optBlocker` is the byte loaded from
    `optimization_blocker_int8`.  Modelled from the spec: that volatile variable is not in the
    sources, so its value is a parameter. -/
def cmov (optBlocker : UInt8) (r x : List UInt8) (len : Nat) (b : UInt8) : List UInt8 :=
  r.mapIdx fun i ri => if i < len then ri ^^^ ((-b &&& (ri ^^^ x.getD i 0)) ^^^ optBlocker) else ri

/-- The word moves: `b = -b; *r ^= b & ((*r) ^ v)`, with `b` a `bw`-bit unsigned value that the
    C promotions zero-extend to the `w` bits of the word. -/
def cmovWord {w bw : Nat} (r v : BitVec w) (b : BitVec bw) : BitVec w :=
  r ^^^ ((-b).setWidth w &&& (r ^^^ v))

/-- `cmov_int16(r, v, b)`: an `int16_t` word and a `uint16_t` condition. -/
def cmovInt16 (r v : BitVec 16) (b : BitVec 16) : BitVec 16 := cmovWord r v b

/-- `cmov_uint32(r, v, b)`: a `uint32_t` word and a `uint32_t` condition. -/
def cmovUint32 (r v : BitVec 32) (b : BitVec 32) : BitVec 32 := cmovWord r v b

/-- `cmov_int(r, v, b)`: an `int` word and a `uint16_t` condition, whose negation `0xFFFF` is
    promoted to the `int` `65535`. -/
def cmovInt (r v : BitVec 32) (b : BitVec 16) : BitVec 32 := cmovWord r v b

/-! ### The byte move -/

/-- One masked byte: with the condition bit `1` the byte becomes `x`, with `0` it stays, and the
    blocker byte is XORed in either way. -/
theorem cmov_byte (ob r x b : UInt8) (hb : b = 0 ∨ b = 1) :
    r ^^^ ((-b &&& (r ^^^ x)) ^^^ ob) = (if b = 1 then x else r) ^^^ ob := by
  apply UInt8.eq_of_toBitVec_eq
  rcases hb with rfl | rfl
  · show r.toBitVec ^^^ ((-0 &&& (r.toBitVec ^^^ x.toBitVec)) ^^^ ob.toBitVec) = r.toBitVec ^^^ ob.toBitVec
    simp
  · show r.toBitVec ^^^ ((-1 &&& (r.toBitVec ^^^ x.toBitVec)) ^^^ ob.toBitVec) = x.toBitVec ^^^ ob.toBitVec
    rw [show (-1 : BitVec 8) = BitVec.allOnes 8 from BitVec.negOne_eq_allOnes, BitVec.allOnes_and,
      ← BitVec.xor_assoc, ← BitVec.xor_assoc, BitVec.xor_self, BitVec.zero_xor]

/-- Byte `i` after `cmov`, for a condition `b ∈ {0, 1}`. -/
theorem getElem_cmov (ob : UInt8) (r x : List UInt8) (len : Nat) (b : UInt8) (hb : b = 0 ∨ b = 1)
    (i : Nat) (h : i < (cmov ob r x len b).length) :
    (cmov ob r x len b)[i] =
      if i < len then (if b = 1 then x.getD i 0 else r.getD i 0) ^^^ ob else r.getD i 0 := by
  have hr : i < r.length := by simpa [cmov] using h
  simp only [cmov, List.getElem_mapIdx, List.getD_eq_getElem _ _ hr]
  by_cases hi : i < len
  · rw [if_pos hi, if_pos hi, cmov_byte _ _ _ _ hb]
  · rw [if_neg hi, if_neg hi]

/-- **`cmov` moves when the blocker reads `0`.**  For a condition `b ∈ {0, 1}` and `len` bytes
    present in both arrays, `cmov` turns the first `len` bytes of `r` into those of `x` when
    `b = 1` and leaves them when `b = 0`, XORed with the blocker byte in both cases. -/
theorem cmov_eq (ob : UInt8) (r x : List UInt8) (len : Nat) (b : UInt8) (hb : b = 0 ∨ b = 1)
    (hr : len ≤ r.length) (hx : len ≤ x.length) :
    cmov ob r x len b =
      (if b = 1 then x.take len ++ r.drop len else r).mapIdx
        fun i y => if i < len then y ^^^ ob else y := by
  apply List.ext_getElem
  · split_ifs <;> simp [cmov]
    omega
  · intro i h1 h2
    have hri : i < r.length := by simpa [cmov] using h1
    rw [getElem_cmov _ _ _ _ _ hb, List.getElem_mapIdx, List.getD_eq_getElem _ _ hri]
    by_cases hi : i < len
    · rw [if_pos hi, if_pos hi, List.getD_eq_getElem _ _ (by omega)]
      split_ifs
      · rw [List.getElem_append_left (by simp; omega), List.getElem_take]
      · rfl
    · rw [if_neg hi, if_neg hi]
      split_ifs
      · rw [List.getElem_append_right (by simp; omega), List.getElem_drop]
        simp [min_eq_left hx, Nat.add_sub_cancel' (show len ≤ i by omega)]
      · rfl

theorem cmov_eq_small :
    ((1 : UInt8) = 0 ∨ (1 : UInt8) = 1) ∧ 2 ≤ [7, 9, 4].length ∧ 2 ≤ [1, 2].length ∧
      cmov 0 [7, 9, 4] [1, 2] 2 1 =
        (if (1 : UInt8) = 1 then [1, 2].take 2 ++ [7, 9, 4].drop 2 else [7, 9, 4]).mapIdx
          fun i y => if i < 2 then y ^^^ 0 else y :=
  ⟨by decide, by decide, by decide, cmov_eq 0 _ _ 2 1 (by decide) (by decide) (by decide)⟩

/-! ### The word moves -/

/-- A condition as wide as the word negates to the all-one word. -/
theorem neg_one_setWidth_of_le {w bw : Nat} (h : w ≤ bw) :
    (-1 : BitVec bw).setWidth w = BitVec.allOnes w := by
  rw [show (-1 : BitVec bw) = BitVec.allOnes bw from BitVec.negOne_eq_allOnes]
  ext i
  simp [BitVec.getLsbD_setWidth, show (i : Nat) < bw by omega]

/-- **The word moves are moves when the condition covers the word.**  `cmov_int16` and
    `cmov_uint32` (`bw = w`) leave the word for `b = 0` and set it to `v` for `b = 1`. -/
theorem cmovWord_zero_one {w bw : Nat} (r v : BitVec w) (h : w ≤ bw) :
    cmovWord r v (0 : BitVec bw) = r ∧ cmovWord r v (1 : BitVec bw) = v := by
  refine ⟨by simp [cmovWord], ?_⟩
  rw [cmovWord, neg_one_setWidth_of_le h, BitVec.allOnes_and, ← BitVec.xor_assoc, BitVec.xor_self,
    BitVec.zero_xor]

theorem cmovWord_zero_one_int16 :
    16 ≤ 16 ∧ cmovWord (0x1234#16) (0xABCD#16) (0 : BitVec 16) = 0x1234#16 ∧
      cmovWord (0x1234#16) (0xABCD#16) (1 : BitVec 16) = 0xABCD#16 :=
  ⟨le_refl _, cmovWord_zero_one _ _ (le_refl _)⟩

/-- **`cmov_int` copies only the low half.**  Its condition is a `uint16_t`, so `-b` promotes to
    `65535`, not `-1`: with `b = 1` the word keeps its upper 16 bits and takes the lower 16 bits
    of `v`; it becomes `v` only when the two already agree above bit 15. -/
theorem cmovInt_one (r v : BitVec 32) :
    (cmovInt r v 1) >>> 16 = r >>> 16 ∧ (cmovInt r v 1).setWidth 16 = v.setWidth 16 := by
  have hm : ∀ i, ((-1 : BitVec 16).setWidth 32).getLsbD i = decide (i < 16) := fun i => by
    rw [show (-1 : BitVec 16) = BitVec.allOnes 16 from BitVec.negOne_eq_allOnes,
      BitVec.getLsbD_setWidth, BitVec.getLsbD_allOnes]
    by_cases hi : i < 16 <;> simp [hi, show i < 16 → i < 32 by omega]
  constructor
  · ext i
    simp only [BitVec.getLsbD_ushiftRight, cmovInt, cmovWord, BitVec.getLsbD_xor, BitVec.getLsbD_and,
      hm]
    simp
  · ext i
    simp only [BitVec.getLsbD_setWidth, cmovInt, cmovWord, BitVec.getLsbD_xor, BitVec.getLsbD_and, hm]
    by_cases hi : i < 16 <;> simp [hi]

/-! ### The `auth_path` update of `treehashx1` -/

/-- **`cmovAuthPath` is the `cmov` of `treehashx1`.**  With the blocker reading `0`, the move of
    the `LC_SPX_N`-byte node `cur` into `auth_path[h]` under the condition bit `cond` is the
    assignment `cmovAuthPath` performs. -/
theorem cmovAuthPath_eq_cmov (st : SlhDsa.TreeHashState) (h : Nat) (cur : List UInt8) (c : Prop)
    [Decidable c] (hlen : cur.length = (st.authPath h).length) :
    (SlhDsa.cmovAuthPath st h cur c).authPath =
      Function.update st.authPath h (cmov 0 (st.authPath h) cur cur.length (if c then 1 else 0)) := by
  have hb : (if c then (1 : UInt8) else 0) = 0 ∨ (if c then (1 : UInt8) else 0) = 1 := by
    split_ifs <;> simp
  have hx0 : ∀ y : UInt8, y ^^^ 0 = y := fun y => UInt8.eq_of_toBitVec_eq (BitVec.xor_zero)
  funext h'
  rw [SlhDsa.cmovAuthPath_authPath]
  by_cases hh : h' = h
  · subst hh
    refine List.ext_getElem (by by_cases hc : c <;> simp [hc, cmov, hlen]) fun i h1 h2 => ?_
    simp only [Function.update_same]
    have hi : i < cur.length := by simpa [cmov, hlen] using h2
    rw [getElem_cmov _ _ _ _ _ hb, if_pos hi, hx0, List.getD_eq_getElem _ _ hi,
      List.getD_eq_getElem _ _ (by omega)]
    by_cases hc : c <;> simp [hc]
  · simp [hh]

theorem cmovAuthPath_eq_cmov_toy :
    [1, 2].length = ((fun _ => [5, 6] : Nat → List UInt8) 0).length ∧
      (SlhDsa.cmovAuthPath ⟨[], fun _ => [5, 6], fun _ => [], ⟨[], 0, 0⟩, []⟩ 0 [1, 2] True).authPath =
        Function.update (fun _ => [5, 6]) 0
          (cmov 0 [5, 6] [1, 2] [1, 2].length (if True then 1 else 0)) :=
  ⟨rfl, cmovAuthPath_eq_cmov _ 0 [1, 2] True rfl⟩

end Leancrypto.SideChannel
