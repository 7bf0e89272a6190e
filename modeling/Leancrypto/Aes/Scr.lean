import Mathlib

namespace Leancrypto.Aes

/-!
# AES, side-channel-resistant implementation — the block transforms and their inverses

The side-channel-resistant AES (`unnamed/part_005`) works on a `state_t`, sixteen bytes
read also as four little-endian words.  `aes_shift_rows` gathers each row into a word and
rotates it, `aes_mix_columns` mixes each column word with rotations and `gf_mul2`, and
`aes_mix_columns_inv` multiplies by `4x² + 5` before `aes_mix_columns`.

* `wordOf`, `byteOf` — the little-endian view of four bytes, with the lemmas that move
  rotations, XOR and `gf_mul2` onto the bytes;
* `aesShiftRows_eq`, `aesShiftRowsInv_eq` — the row loops rotate each row by its index;
* `aesMixOneColumn_wordOf` — the bytes of a mixed column, as FIPS-197 multiplies them;
* `mixColumnInv_mixOneColumn` — the factorisation inverts the column mix on every word;
* `aesInvCipherScr_cipherScr`, `aesCipherScr_invCipherScr` — the two block functions are
  inverse on every state, for every round-key array and every `nr ≥ 1`.
-/

/-! ### Bytes and little-endian words -/

/-- The word whose little-endian bytes are `a, b, c, d`: how `state_t` and the round-key
    array see four bytes as a `uint32_t` on a little-endian host. -/
def wordOf (a b c d : BitVec 8) : BitVec 32 := d ++ c ++ b ++ a

/-- Byte `k` of a word, least significant first. -/
def byteOf (x : BitVec 32) (k : Nat) : BitVec 8 := x.extractLsb' (8 * k) 8

/-- Bit `i` of a word is a bit of the byte it falls in. -/
theorem getLsbD_wordOf (a b c d : BitVec 8) (i : Nat) :
    (wordOf a b c d).getLsbD i =
      if i < 8 then a.getLsbD i else if i < 16 then b.getLsbD (i - 8)
      else if i < 24 then c.getLsbD (i - 16) else d.getLsbD (i - 24) := by
  simp only [wordOf, BitVec.getLsbD_append, Nat.sub_sub]
  rcases (by omega : i < 8 ∨ (8 ≤ i ∧ i < 16) ∨ (16 ≤ i ∧ i < 24) ∨ 24 ≤ i) with h | h | h | h <;>
    simp (disch := omega) only [Nat.reduceAdd, decide_eq_true, decide_eq_false, cond_true,
      cond_false, if_pos, if_neg]

@[simp] theorem byteOf_wordOf_zero (a b c d : BitVec 8) : byteOf (wordOf a b c d) 0 = a := by
  apply BitVec.eq_of_getLsbD_eq; rintro ⟨i, hi⟩
  simp (disch := omega) only [byteOf, BitVec.getLsbD_extractLsb', getLsbD_wordOf, if_pos, if_neg,
    decide_eq_true hi, Bool.true_and, Nat.reduceMul, Nat.zero_add, Nat.add_sub_cancel_left]

@[simp] theorem byteOf_wordOf_one (a b c d : BitVec 8) : byteOf (wordOf a b c d) 1 = b := by
  apply BitVec.eq_of_getLsbD_eq; rintro ⟨i, hi⟩
  simp (disch := omega) only [byteOf, BitVec.getLsbD_extractLsb', getLsbD_wordOf, if_pos, if_neg,
    decide_eq_true hi, Bool.true_and, Nat.reduceMul, Nat.zero_add, Nat.add_sub_cancel_left]

@[simp] theorem byteOf_wordOf_two (a b c d : BitVec 8) : byteOf (wordOf a b c d) 2 = c := by
  apply BitVec.eq_of_getLsbD_eq; rintro ⟨i, hi⟩
  simp (disch := omega) only [byteOf, BitVec.getLsbD_extractLsb', getLsbD_wordOf, if_pos, if_neg,
    decide_eq_true hi, Bool.true_and, Nat.reduceMul, Nat.zero_add, Nat.add_sub_cancel_left]

@[simp] theorem byteOf_wordOf_three (a b c d : BitVec 8) : byteOf (wordOf a b c d) 3 = d := by
  apply BitVec.eq_of_getLsbD_eq; rintro ⟨i, hi⟩
  simp (disch := omega) only [byteOf, BitVec.getLsbD_extractLsb', getLsbD_wordOf, if_pos, if_neg,
    decide_eq_true hi, Bool.true_and, Nat.reduceMul, Nat.zero_add, Nat.add_sub_cancel_left]

theorem wordOf_byteOf (x : BitVec 32) :
    wordOf (byteOf x 0) (byteOf x 1) (byteOf x 2) (byteOf x 3) = x := by
  apply BitVec.eq_of_getLsbD_eq; rintro ⟨i, hi⟩
  simp only [getLsbD_wordOf, byteOf, BitVec.getLsbD_extractLsb']
  split_ifs <;> simp (disch := omega) only [decide_eq_true, Bool.true_and] <;> congr 1 <;> omega

@[simp] theorem wordOf_xor (a b c d a' b' c' d' : BitVec 8) :
    wordOf a b c d ^^^ wordOf a' b' c' d' =
      wordOf (a ^^^ a') (b ^^^ b') (c ^^^ c') (d ^^^ d') := by
  apply BitVec.eq_of_getLsbD_eq; intro i
  simp only [BitVec.getLsbD_xor, getLsbD_wordOf]
  split_ifs <;> rfl

theorem wordOf_zero : wordOf 0 0 0 0 = 0 := rfl

/-- `ror32`.  Modelled from the spec: `rotate.h` is not in the sources. -/
def ror32 (x : BitVec 32) (n : Nat) : BitVec 32 := x.rotateRight n

/-- `rol32`.  Modelled from the spec: `rotate.h` is not in the sources. -/
def rol32 (x : BitVec 32) (n : Nat) : BitVec 32 := x.rotateLeft n

@[simp] theorem ror32_wordOf_zero (a b c d : BitVec 8) :
    ror32 (wordOf a b c d) 0 = wordOf a b c d := by
  apply BitVec.eq_of_getLsbD_eq; rintro ⟨i, hi⟩
  simp [ror32, BitVec.getLsbD_rotateRight, hi]

@[simp] theorem ror32_wordOf_eight (a b c d : BitVec 8) :
    ror32 (wordOf a b c d) 8 = wordOf b c d a := by
  apply BitVec.eq_of_getLsbD_eq; rintro ⟨i, hi⟩
  simp only [ror32, BitVec.getLsbD_rotateRight, getLsbD_wordOf, Nat.reduceMod, Nat.reduceSub]
  rcases (by omega : i < 8 ∨ (8 ≤ i ∧ i < 16) ∨ (16 ≤ i ∧ i < 24) ∨ 24 ≤ i) with h | h | h | h <;>
    simp (disch := omega) only [if_pos, if_neg, decide_eq_true, decide_eq_false, cond_true,
      cond_false, Bool.true_and] <;> congr 1 <;> omega

@[simp] theorem ror32_wordOf_sixteen (a b c d : BitVec 8) :
    ror32 (wordOf a b c d) 16 = wordOf c d a b := by
  apply BitVec.eq_of_getLsbD_eq; rintro ⟨i, hi⟩
  simp only [ror32, BitVec.getLsbD_rotateRight, getLsbD_wordOf, Nat.reduceMod, Nat.reduceSub]
  rcases (by omega : i < 8 ∨ (8 ≤ i ∧ i < 16) ∨ (16 ≤ i ∧ i < 24) ∨ 24 ≤ i) with h | h | h | h <;>
    simp (disch := omega) only [if_pos, if_neg, decide_eq_true, decide_eq_false, cond_true,
      cond_false, Bool.true_and] <;> congr 1 <;> omega

@[simp] theorem ror32_wordOf_twentyFour (a b c d : BitVec 8) :
    ror32 (wordOf a b c d) 24 = wordOf d a b c := by
  apply BitVec.eq_of_getLsbD_eq; rintro ⟨i, hi⟩
  simp only [ror32, BitVec.getLsbD_rotateRight, getLsbD_wordOf, Nat.reduceMod, Nat.reduceSub]
  rcases (by omega : i < 8 ∨ (8 ≤ i ∧ i < 16) ∨ (16 ≤ i ∧ i < 24) ∨ 24 ≤ i) with h | h | h | h <;>
    simp (disch := omega) only [if_pos, if_neg, decide_eq_true, decide_eq_false, cond_true,
      cond_false, Bool.true_and] <;> congr 1
  omega

/-- A left rotation is the right rotation by the complement. -/
theorem rol32_eq_ror32 (x : BitVec 32) {n : Nat} (hn : 0 < n ∧ n < 32) : rol32 x n = ror32 x (32 - n) := by
  simp only [rol32, ror32, BitVec.rotateLeft, BitVec.rotateRight, BitVec.rotateLeftAux,
    BitVec.rotateRightAux, Nat.mod_eq_of_lt hn.2, Nat.mod_eq_of_lt (show 32 - n < 32 by omega),
    Nat.sub_sub_self hn.2.le]
  exact BitVec.or_comm _ _

@[simp] theorem rol32_wordOf_zero (a b c d : BitVec 8) :
    rol32 (wordOf a b c d) 0 = wordOf a b c d := by
  apply BitVec.eq_of_getLsbD_eq; rintro ⟨i, hi⟩
  simp [rol32, BitVec.getLsbD_rotateLeft, hi]

@[simp] theorem rol32_wordOf_eight (a b c d : BitVec 8) :
    rol32 (wordOf a b c d) 8 = wordOf d a b c := by
  rw [rol32_eq_ror32 _ (by norm_num), ror32_wordOf_twentyFour]

@[simp] theorem rol32_wordOf_sixteen (a b c d : BitVec 8) :
    rol32 (wordOf a b c d) 16 = wordOf c d a b := by
  rw [rol32_eq_ror32 _ (by norm_num), ror32_wordOf_sixteen]

@[simp] theorem rol32_wordOf_twentyFour (a b c d : BitVec 8) :
    rol32 (wordOf a b c d) 24 = wordOf b c d a := by
  rw [rol32_eq_ror32 _ (by norm_num), ror32_wordOf_eight]

/-- Putting a byte into the empty low byte of a word (`x |= b[j]`). -/
theorem wordOf_zero_or (x1 x2 x3 a : BitVec 8) :
    wordOf 0 x1 x2 x3 ||| a.setWidth 32 = wordOf a x1 x2 x3 := by
  apply BitVec.eq_of_getLsbD_eq; rintro ⟨i, hi⟩
  simp only [BitVec.getLsbD_or, getLsbD_wordOf, BitVec.getLsbD_setWidth, BitVec.getLsbD_zero]
  split_ifs <;> simp (disch := omega) [BitVec.getLsbD_ge, hi]

/-- Taking a byte out of a word (`b[j] = x & 0xff; x >>= 8`). -/
theorem setWidth_shift_and (x : BitVec 32) (k : Nat) :
    ((x >>> (8 * k)) &&& 0xff).setWidth 8 = byteOf x k := by
  apply BitVec.eq_of_getLsbD_eq; intro i
  have h : ∀ i : Fin 8, (255#8).getLsbD i = true := by decide
  simp [byteOf, h, Nat.add_comm]

/-! ### The byte functions -/

/-- The FIPS-197 S-box (FIPS-197 Figure 7), entry `i` in bits `8i .. 8i + 7`. -/
def sboxTable : Nat :=
  0x16bb54b00f2d99416842e6bf0d89a18cdf2855cee9871e9b948ed9691198f8e19e1dc186b95735610ef6034866b53e708a8bbd4b1f74dde8c6b4a61c2e2578ba08ae7a65eaf4566ca94ed58d6d37c8e779e4959162acd3c25c2406490a3a32e0db0b5ede14b8ee4688902a22dc4f816073195d643d7ea7c41744975fec130ccdd2f3ff1021dab6bcf5389d928f40a351a89f3c507f02f94585334d43fbaaefd0cf584c4a39becb6a5bb1fc20ed00d153842fe329b3d63b52a05a6e1b1a2c830975b227ebe28012079a059618c323c7041531d871f1e5a534ccf73f362693fdb7c072a49cafa2d4adf04759fa7dc982ca76abd7fe2b670130c56f6bf27b777c63

/-- The FIPS-197 inverse S-box (FIPS-197 Figure 14), entry `i` in bits `8i .. 8i + 7`. -/
def invSboxTable : Nat :=
  0x7d0c2155631469e126d677ba7e042b17619953833cbbebc8b0f52aae4d3be0a0ef9cc9939f7ae52d0d4ab519a97f51605fec8027591012b131c7078833a8dd1ff45acd78fec0db9a2079d2c64b3e56fc1bbe18aa0e62b76f89c5291d711af1476edf751ce837f9e28535ade72274ac9673e6b4f0cecff297eadc674f4111913a6b8a130103bdafc1020f3fca8f1e2cd00645b3b80558e4f70ad3bc8c00abd890849d8da75746155edab9edfd5048706c92b6655dcc5ca4d41698688664f6f87225d18b6d49a25b76b224d92866a12e084ec3fa420b954cee3d23c2a632947b54cbe9dec444438e3487ff2f9b8239e37cfbd7f3819ea340bf38a53630d56a0952

/-- `aes_sub_byte`.  Modelled from the spec: the side-channel-resistant S-box computation
    is not in the sources; it computes the FIPS-197 S-box. -/
def aesSubByte (a : BitVec 8) : BitVec 8 := BitVec.ofNat 8 (sboxTable >>> (8 * a.toNat))

/-- `aes_sub_byte_inv`.  Modelled from the spec, as `aes_sub_byte`. -/
def aesSubByteInv (a : BitVec 8) : BitVec 8 := BitVec.ofNat 8 (invSboxTable >>> (8 * a.toNat))

theorem aesSubByteInv_subByte : ∀ a, aesSubByteInv (aesSubByte a) = a := by decide

theorem aesSubByte_subByteInv : ∀ a, aesSubByte (aesSubByteInv a) = a := by decide

/-- `aes_sub_word`: `aes_sub_byte` on each byte of a word.  Modelled from the spec. -/
def aesSubWord (x : BitVec 32) : BitVec 32 :=
  wordOf (aesSubByte (byteOf x 0)) (aesSubByte (byteOf x 1)) (aesSubByte (byteOf x 2))
    (aesSubByte (byteOf x 3))

/-- Multiplication by `x` in `GF(2^8)` modulo `x^8 + x^4 + x^3 + x + 1` (FIPS-197
    `xtime`). -/
def xtime (a : BitVec 8) : BitVec 8 := (a <<< 1) ^^^ (if a.msb then 0x1b else 0)

theorem xor_xor_xor_comm (x y z t : BitVec 8) : x ^^^ y ^^^ (z ^^^ t) = x ^^^ z ^^^ (y ^^^ t) := by
  rw [BitVec.xor_assoc, ← BitVec.xor_assoc y, BitVec.xor_comm y z, BitVec.xor_assoc,
    ← BitVec.xor_assoc]

theorem xtime_xor (a b : BitVec 8) : xtime (a ^^^ b) = xtime a ^^^ xtime b := by
  rw [xtime, xtime, xtime, BitVec.shiftLeft_xor_distrib, BitVec.msb_xor, xor_xor_xor_comm]
  congr 1
  cases a.msb <;> cases b.msb <;> simp

@[simp] theorem xtime_zero : xtime 0 = 0 := rfl

/-- `gf_mul2`: `xtime` on each byte of a word.  Modelled from the spec:
    `aes_scr_helper.h` is not in the sources. -/
def gfMul2 (x : BitVec 32) : BitVec 32 :=
  wordOf (xtime (byteOf x 0)) (xtime (byteOf x 1)) (xtime (byteOf x 2)) (xtime (byteOf x 3))

@[simp] theorem gfMul2_wordOf (a b c d : BitVec 8) :
    gfMul2 (wordOf a b c d) = wordOf (xtime a) (xtime b) (xtime c) (xtime d) := by
  simp [gfMul2]

/-! ### The state and the round functions -/

/-- `state_t`: byte `b[4c + r]` is `s c r`, row `r` of column `c`; column `c` is the
    little-endian word `w[c]`. -/
abbrev AesState := Fin 4 → Fin 4 → BitVec 8

/-- `state->w[c]`. -/
def colWord (s : AesState) (c : Fin 4) : BitVec 32 := wordOf (s c 0) (s c 1) (s c 2) (s c 3)

/-- `aes_sub_bytes`. -/
def aesSubBytes (s : AesState) : AesState := fun c r => aesSubByte (s c r)

/-- `aes_sub_bytes_inv`. -/
def aesSubBytesInv (s : AesState) : AesState := fun c r => aesSubByteInv (s c r)

/-- The gathering loop of `aes_shift_rows(_inv)`: `x |= b[j]; x = ror32(x, 8)` for the
    bytes `b[i], b[i + 4], b[i + 8], b[i + 12]` of row `i`, from `x = 0`. -/
def getRow (s : AesState) (i : Fin 4) : BitVec 32 :=
  (List.finRange 4).foldl (fun x c => ror32 (x ||| (s c i).setWidth 32) 8) 0

/-- The scattering loop: `b[j] = x & 0xff; x >>= 8` for the bytes of row `i`. -/
def setRow (s : AesState) (i : Fin 4) (x : BitVec 32) : AesState :=
  fun c r => if r = i then ((x >>> (8 * c.val)) &&& 0xff).setWidth 8 else s c r

/-- `aes_shift_rows`: each row `i` in turn, gathered, rotated right by `8 i` bits and
    scattered back. -/
def aesShiftRows (s : AesState) : AesState :=
  (List.finRange 4).foldl (fun s i => setRow s i (ror32 (getRow s i) (i.val * 8))) s

/-- `aes_shift_rows_inv`: the same with a left rotation. -/
def aesShiftRowsInv (s : AesState) : AesState :=
  (List.finRange 4).foldl (fun s i => setRow s i (rol32 (getRow s i) (i.val * 8))) s

/-- `aes_mix_one_column`. -/
def aesMixOneColumn (w : BitVec 32) : BitVec 32 :=
  ror32 w 8 ^^^ ror32 w 16 ^^^ ror32 w 24 ^^^ gfMul2 (ror32 w 8 ^^^ w)

/-- The bytes of a mixed column, from the bytes `a0 .. a3` of the column. -/
theorem aesMixOneColumn_wordOf (a0 a1 a2 a3 : BitVec 8) :
    aesMixOneColumn (wordOf a0 a1 a2 a3) =
      wordOf (a1 ^^^ a2 ^^^ a3 ^^^ xtime (a1 ^^^ a0)) (a2 ^^^ a3 ^^^ a0 ^^^ xtime (a2 ^^^ a1))
        (a3 ^^^ a0 ^^^ a1 ^^^ xtime (a3 ^^^ a2)) (a0 ^^^ a1 ^^^ a2 ^^^ xtime (a0 ^^^ a3)) := by
  simp only [aesMixOneColumn, ror32_wordOf_eight, ror32_wordOf_sixteen, ror32_wordOf_twentyFour,
    wordOf_xor, gfMul2_wordOf]

/-- `aes_mix_columns`: each column word mixed. -/
def aesMixColumns (s : AesState) : AesState :=
  fun c r => byteOf (aesMixOneColumn (colWord s c)) r

/-- The loop body of `aes_mix_columns_inv` on one column word: `t = ror32(w, 16) ^ w`,
    `t = gf_mul2(gf_mul2(t))`, `w ^= t`, then `aes_mix_one_column`. -/
def mixColumnInv (w : BitVec 32) : BitVec 32 :=
  aesMixOneColumn (w ^^^ gfMul2 (gfMul2 (ror32 w 16 ^^^ w)))

/-- `aes_mix_columns_inv`. -/
def aesMixColumnsInv (s : AesState) : AesState :=
  fun c r => byteOf (mixColumnInv (colWord s c)) r

/-- `aes_add_round_key`: `xor_64` of the sixteen bytes of round-key words
    `w[4 rnd .. 4 rnd + 3]` into the state. -/
def aesAddRoundKey (s : AesState) (w : Nat → BitVec 32) (rnd : Nat) : AesState :=
  fun c r => s c r ^^^ byteOf (w (4 * rnd + c)) r

/-- `aes_cipher_scr` with `round_key` the word array `w`: round key 0, the full rounds
    `1 .. nr - 1`, and the last round with the round `round` ends the loop at. -/
def aesCipherScr (w : Nat → BitVec 32) (nr : Nat) (s : AesState) : AesState :=
  let s := (List.range' 1 (nr - 1)).foldl
    (fun s round => aesAddRoundKey (aesMixColumns (aesShiftRows (aesSubBytes s))) w round)
    (aesAddRoundKey s w 0)
  aesAddRoundKey (aesShiftRows (aesSubBytes s)) w (max nr 1)

/-- `aes_inv_cipher_scr`: round key `nr`, the rounds `nr - 1` down to 1, and the last
    round with round key 0.  For `1 ≤ nr ≤ 255` the `uint8_t` counter does not wrap. -/
def aesInvCipherScr (w : Nat → BitVec 32) (nr : Nat) (s : AesState) : AesState :=
  let s := (List.range' 1 (nr - 1)).reverse.foldl
    (fun s round =>
      aesMixColumnsInv (aesAddRoundKey (aesShiftRowsInv (aesSubBytesInv s)) w round))
    (aesAddRoundKey s w nr)
  aesAddRoundKey (aesShiftRowsInv (aesSubBytesInv s)) w 0

/-! ### Linearity of the column mix -/

theorem ror32_xor (x y : BitVec 32) (n : Nat) : ror32 (x ^^^ y) n = ror32 x n ^^^ ror32 y n := by
  apply BitVec.eq_of_getLsbD_eq; rintro ⟨i, hi⟩
  simp only [ror32, BitVec.getLsbD_rotateRight, BitVec.getLsbD_xor]
  cases decide (i < 32 - n % 32) <;> simp [Bool.and_xor_distrib_left]

theorem byteOf_xor (x y : BitVec 32) (k : Nat) : byteOf (x ^^^ y) k = byteOf x k ^^^ byteOf y k := by
  apply BitVec.eq_of_getLsbD_eq; rintro ⟨i, hi⟩
  simp [byteOf, hi]

theorem gfMul2_xor (x y : BitVec 32) : gfMul2 (x ^^^ y) = gfMul2 x ^^^ gfMul2 y := by
  simp only [gfMul2, byteOf_xor, xtime_xor, wordOf_xor]

theorem aesMixOneColumn_xor (x y : BitVec 32) :
    aesMixOneColumn (x ^^^ y) = aesMixOneColumn x ^^^ aesMixOneColumn y := by
  simp only [aesMixOneColumn, ror32_xor, gfMul2_xor]
  ac_rfl

theorem mixColumnInv_xor (x y : BitVec 32) :
    mixColumnInv (x ^^^ y) = mixColumnInv x ^^^ mixColumnInv y := by
  simp only [mixColumnInv, ror32_xor, gfMul2_xor, aesMixOneColumn_xor]
  ac_rfl

/-- The word with the bits of `w` below `n`. -/
def lowBits (w : BitVec 32) : Nat → BitVec 32
  | 0 => 0
  | n + 1 => lowBits w n ^^^ (if w.getLsbD n then BitVec.twoPow 32 n else 0)

theorem getLsbD_lowBits (w : BitVec 32) (n j : Nat) :
    (lowBits w n).getLsbD j = (w.getLsbD j && decide (j < n)) := by
  induction n with
  | zero => simp [lowBits]
  | succ n ih =>
    rw [lowBits, BitVec.getLsbD_xor, ih]
    by_cases hj : j = n
    · subst hj
      cases h : w.getLsbD j
      · simp [h]
      · simp [h, BitVec.getLsbD_twoPow, BitVec.lt_of_getLsbD h]
    · have : j < n + 1 ↔ j < n := by omega
      cases h : w.getLsbD n <;> simp [h, BitVec.getLsbD_twoPow, Ne.symm hj, this]

theorem lowBits_thirtyTwo (w : BitVec 32) : lowBits w 32 = w := by
  apply BitVec.eq_of_getLsbD_eq; rintro ⟨i, hi⟩
  simp [getLsbD_lowBits, hi]

/-- A map that distributes over `^^^` and fixes every one-bit word is the identity. -/
theorem eq_self_of_xor_of_twoPow {f : BitVec 32 → BitVec 32}
    (hxor : ∀ x y, f (x ^^^ y) = f x ^^^ f y) (hbit : ∀ i : Fin 32, f (BitVec.twoPow 32 i) = BitVec.twoPow 32 i)
    (w : BitVec 32) : f w = w := by
  have h0 : f 0 = 0 := by simpa using hxor 0 0
  suffices ∀ n ≤ 32, f (lowBits w n) = lowBits w n by simpa [lowBits_thirtyTwo] using this 32 le_rfl
  intro n hn
  induction n with
  | zero => exact h0
  | succ n ih =>
    rw [lowBits, hxor, ih (by omega)]
    split_ifs
    · rw [hbit ⟨n, by omega⟩]
    · rw [h0]

theorem mixColumnInv_mixOneColumn (w : BitVec 32) : mixColumnInv (aesMixOneColumn w) = w :=
  eq_self_of_xor_of_twoPow (f := fun w => mixColumnInv (aesMixOneColumn w))
    (fun x y => by simp only [aesMixOneColumn_xor, mixColumnInv_xor]) (by decide) w

theorem aesMixOneColumn_mixColumnInv (w : BitVec 32) : aesMixOneColumn (mixColumnInv w) = w :=
  eq_self_of_xor_of_twoPow (f := fun w => aesMixOneColumn (mixColumnInv w))
    (fun x y => by simp only [mixColumnInv_xor, aesMixOneColumn_xor]) (by decide) w

theorem finRange_four : List.finRange 4 = [0, 1, 2, 3] := rfl

theorem getRow_eq (s : AesState) (i : Fin 4) :
    getRow s i = wordOf (s 0 i) (s 1 i) (s 2 i) (s 3 i) := by
  simp only [getRow, finRange_four, List.foldl_cons, List.foldl_nil, ← wordOf_zero,
    wordOf_zero_or, ror32_wordOf_eight]

theorem setRow_wordOf (s : AesState) (i : Fin 4) (a b c d : BitVec 8) :
    setRow s i (wordOf a b c d) = fun c' r => if r = i then ![a, b, c, d] c' else s c' r := by
  funext c' r
  simp only [setRow, setWidth_shift_and]
  split_ifs
  · fin_cases c' <;> simp
  · rfl

theorem setRow_ror_getRow (s : AesState) (i : Fin 4) :
    setRow s i (ror32 (getRow s i) (i.val * 8)) =
      fun c r => if r = i then s (c + i) i else s c r := by
  funext c r
  rw [getRow_eq]
  fin_cases i <;> simp [setRow_wordOf] <;> split_ifs <;> fin_cases c <;> rfl

theorem setRow_rol_getRow (s : AesState) (i : Fin 4) :
    setRow s i (rol32 (getRow s i) (i.val * 8)) =
      fun c r => if r = i then s (c - i) i else s c r := by
  funext c r
  rw [getRow_eq]
  fin_cases i <;> simp [setRow_wordOf] <;> split_ifs <;> fin_cases c <;> rfl

theorem aesShiftRows_eq (s : AesState) : aesShiftRows s = fun c r => s (c + r) r := by
  funext c r
  simp only [aesShiftRows, finRange_four, List.foldl_cons, List.foldl_nil, setRow_ror_getRow]
  fin_cases r <;> simp

theorem aesShiftRowsInv_eq (s : AesState) : aesShiftRowsInv s = fun c r => s (c - r) r := by
  funext c r
  simp only [aesShiftRowsInv, finRange_four, List.foldl_cons, List.foldl_nil, setRow_rol_getRow]
  fin_cases r <;> simp

theorem byteOf_colWord (s : AesState) (c r : Fin 4) : byteOf (colWord s c) r = s c r := by
  fin_cases r <;> simp [colWord]

theorem colWord_aesMixColumns (s : AesState) (c : Fin 4) :
    colWord (aesMixColumns s) c = aesMixOneColumn (colWord s c) :=
  wordOf_byteOf _

theorem colWord_aesMixColumnsInv (s : AesState) (c : Fin 4) :
    colWord (aesMixColumnsInv s) c = mixColumnInv (colWord s c) :=
  wordOf_byteOf _

theorem aesMixColumnsInv_mixColumns (s : AesState) : aesMixColumnsInv (aesMixColumns s) = s := by
  funext c r
  rw [aesMixColumnsInv, colWord_aesMixColumns, mixColumnInv_mixOneColumn, byteOf_colWord]

theorem aesMixColumns_mixColumnsInv (s : AesState) : aesMixColumns (aesMixColumnsInv s) = s := by
  funext c r
  rw [aesMixColumns, colWord_aesMixColumnsInv, aesMixOneColumn_mixColumnInv, byteOf_colWord]

/-- `SubBytes` then `ShiftRows`, undone by their inverses in either order. -/
theorem shiftRowsInv_subBytesInv_shiftRows_subBytes (s : AesState) :
    aesShiftRowsInv (aesSubBytesInv (aesShiftRows (aesSubBytes s))) = s := by
  funext c r
  simp [aesShiftRowsInv_eq, aesShiftRows_eq, aesSubBytesInv, aesSubBytes, aesSubByteInv_subByte]

theorem shiftRows_subBytes_shiftRowsInv_subBytesInv (s : AesState) :
    aesShiftRows (aesSubBytes (aesShiftRowsInv (aesSubBytesInv s))) = s := by
  funext c r
  simp [aesShiftRowsInv_eq, aesShiftRows_eq, aesSubBytesInv, aesSubBytes, aesSubByte_subByteInv]

@[simp] theorem aesAddRoundKey_aesAddRoundKey (s : AesState) (w : Nat → BitVec 32) (rnd : Nat) :
    aesAddRoundKey (aesAddRoundKey s w rnd) w rnd = s := by
  funext c r
  simp [aesAddRoundKey, BitVec.xor_assoc]

theorem foldl_reverse_foldl {α β : Type} {F G : α → β → α} {P : α → α}
    (h : ∀ z r, G (P (F z r)) r = P z) (L : List β) (y : α) :
    L.reverse.foldl G (P (L.foldl F y)) = P y := by
  induction L generalizing y with
  | nil => rfl
  | cons r L ih => simp [ih, h]

theorem foldl_foldl_reverse {α β : Type} {F G : α → β → α} {H : α → α}
    (h : ∀ z r, F (H (G z r)) r = H z) (L : List β) (z : α) :
    L.foldl F (H (L.reverse.foldl G z)) = H z := by
  induction L generalizing z with
  | nil => rfl
  | cons r L ih =>
    simp only [List.reverse_cons, List.foldl_append, List.foldl_cons, List.foldl_nil, h, ih]

theorem aesInvCipherScr_cipherScr (w : Nat → BitVec 32) {nr : Nat} (hnr : 0 < nr) (s : AesState) :
    aesInvCipherScr w nr (aesCipherScr w nr s) = s := by
  simp only [aesCipherScr, aesInvCipherScr, max_eq_left hnr, aesAddRoundKey_aesAddRoundKey]
  rw [foldl_reverse_foldl (P := fun s => aesShiftRows (aesSubBytes s)), shiftRowsInv_subBytesInv_shiftRows_subBytes, aesAddRoundKey_aesAddRoundKey]
  intro z r
  simp only [shiftRowsInv_subBytesInv_shiftRows_subBytes, aesAddRoundKey_aesAddRoundKey, aesMixColumnsInv_mixColumns]

theorem aesCipherScr_invCipherScr (w : Nat → BitVec 32) {nr : Nat} (hnr : 0 < nr) (s : AesState) :
    aesCipherScr w nr (aesInvCipherScr w nr s) = s := by
  simp only [aesCipherScr, aesInvCipherScr, max_eq_left hnr, aesAddRoundKey_aesAddRoundKey]
  rw [foldl_foldl_reverse (H := fun s => aesShiftRowsInv (aesSubBytesInv s)),
    shiftRows_subBytes_shiftRowsInv_subBytesInv, aesAddRoundKey_aesAddRoundKey]
  intro z r
  simp only [shiftRows_subBytes_shiftRowsInv_subBytesInv, aesMixColumns_mixColumnsInv,
    aesAddRoundKey_aesAddRoundKey]

/-- **The block transforms are inverse.**  For every round-key array and every `nr ≥ 1`,
    `aes_inv_cipher_scr` undoes `aes_cipher_scr` and `aes_cipher_scr` undoes
    `aes_inv_cipher_scr`, on every state. -/
theorem aesCipherScr_inverse (w : Nat → BitVec 32) {nr : Nat} (hnr : 0 < nr) (s : AesState) :
    aesInvCipherScr w nr (aesCipherScr w nr s) = s ∧
      aesCipherScr w nr (aesInvCipherScr w nr s) = s :=
  ⟨aesInvCipherScr_cipherScr w hnr s, aesCipherScr_invCipherScr w hnr s⟩

theorem aesCipherScr_inverse_ten :
    (0 : Nat) < 10 ∧
    aesInvCipherScr (fun i => BitVec.ofNat 32 i) 10
        (aesCipherScr (fun i => BitVec.ofNat 32 i) 10 fun c r => BitVec.ofNat 8 (4 * c.val + r.val)) =
      (fun c r => BitVec.ofNat 8 (4 * c.val + r.val)) ∧
    aesCipherScr (fun i => BitVec.ofNat 32 i) 10
        (aesInvCipherScr (fun i => BitVec.ofNat 32 i) 10 fun c r => BitVec.ofNat 8 (4 * c.val + r.val)) =
      (fun c r => BitVec.ofNat 8 (4 * c.val + r.val)) :=
  ⟨by decide, aesCipherScr_inverse _ (by decide) _⟩

end Leancrypto.Aes
