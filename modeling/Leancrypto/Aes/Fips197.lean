import Mathlib
import Leancrypto.Aes.Scr

namespace Leancrypto.Aes

/-!
# AES — the side-channel-resistant implementation against FIPS-197

FIPS-197 specifies AES over a byte state `s[r][c]`, key words of four bytes and `GF(2^8)`
arithmetic.  The side-channel-resistant code uses little-endian `uint32_t` words for the
columns and the key schedule, rotations for `ShiftRows`, `RotWord` and the column mix, and
a running `rcon` for the round constants.

* `fipsSubBytes` … `fipsCipher`, `fipsKeyWord` — FIPS-197 sections 5.1 and 5.2, over the
  state layout FIPS-197 gives (byte `n` of the block is `s[n mod 4][n / 4]`);
* `aesSetkey`, `aesKeyExpansionScr` — `aes_setkey` on both key-load paths;
* `aesSetkey_eq` — the schedule the code writes is the FIPS-197 one, word by word;
* `aesCipherScr_eq_fipsCipher` — with any schedule read as little-endian words, the
  block function is FIPS-197 `Cipher()`;
* `aesKeyExpansionScr_eq_fips197` — the two together for AES-128, -192 and -256.
-/

/-! ### FIPS-197 -/

/-- A FIPS-197 word: four bytes `[a0, a1, a2, a3]`. -/
abbrev FipsWord := Fin 4 → BitVec 8

/-- A FIPS-197 word as the code stores it, little-endian. -/
def toWord (v : FipsWord) : BitVec 32 := wordOf (v 0) (v 1) (v 2) (v 3)

/-- The S-box of FIPS-197 Figure 7. -/
def fipsSBox (a : BitVec 8) : BitVec 8 := BitVec.ofNat 8 (sboxTable >>> (8 * a.toNat))

/-- `{02} • a` and `{03} • a` (FIPS-197 4.2.1). -/
def mul2 (a : BitVec 8) : BitVec 8 := xtime a

/-- `{03} • a = ({02} • a) ⊕ a`. -/
def mul3 (a : BitVec 8) : BitVec 8 := xtime a ^^^ a

/-- `SubBytes()` (5.1.1). -/
def fipsSubBytes (s : AesState) : AesState := fun c r => fipsSBox (s c r)

/-- `ShiftRows()` (5.1.2): `s'[r][c] = s[r][(c + shift(r, 4)) mod 4]`, `shift(r, 4) = r`. -/
def fipsShiftRows (s : AesState) : AesState := fun c r => s (c + r) r

/-- `MixColumns()` (5.1.3): `s'[r][c] = {02} s[r][c] ⊕ {03} s[r+1][c] ⊕ s[r+2][c] ⊕
    s[r+3][c]`, row indices modulo 4. -/
def fipsMixColumns (s : AesState) : AesState :=
  fun c r => mul2 (s c r) ^^^ mul3 (s c (r + 1)) ^^^ s c (r + 2) ^^^ s c (r + 3)

/-- `AddRoundKey()` (5.1.4): column `c` XORed with word `w[round * Nb + c]`. -/
def fipsAddRoundKey (s : AesState) (w : Nat → FipsWord) (round : Nat) : AesState :=
  fun c r => s c r ^^^ w (4 * round + c) r

/-- `Cipher()` (5.1). -/
def fipsCipher (w : Nat → FipsWord) (nr : Nat) (s : AesState) : AesState :=
  let s := (List.range' 1 (nr - 1)).foldl
    (fun s round => fipsAddRoundKey (fipsMixColumns (fipsShiftRows (fipsSubBytes s))) w round)
    (fipsAddRoundKey s w 0)
  fipsAddRoundKey (fipsShiftRows (fipsSubBytes s)) w nr

/-- `SubWord()`. -/
def subWord (v : FipsWord) : FipsWord := fun j => fipsSBox (v j)

/-- `RotWord()`: `[a0, a1, a2, a3]` to `[a1, a2, a3, a0]`. -/
def rotWord (v : FipsWord) : FipsWord := fun j => v (j + 1)

/-- `Rcon[i] = [x^(i-1), {00}, {00}, {00}]`. -/
def rcon (i : Nat) : FipsWord := ![xtime^[i - 1] 1, 0, 0, 0]

/-- `temp` of `KeyExpansion()` for word `i`, from `temp = w[i - 1]`. -/
def fipsTemp (nk i : Nat) (temp : FipsWord) : FipsWord :=
  if i % nk = 0 then fun j => subWord (rotWord temp) j ^^^ rcon (i / nk) j
  else if 6 < nk ∧ i % nk = 4 then subWord temp else temp

/-- Word `i` of `KeyExpansion()` (5.2) for a key of `nk` words. -/
def fipsKeyWord (key : List (BitVec 8)) (nk : Nat) (i : Nat) : FipsWord :=
  if i < nk ∨ nk = 0 then fun j => key.getD (4 * i + j.val) 0
  else fun j => fipsKeyWord key nk (i - nk) j ^^^ fipsTemp nk i (fipsKeyWord key nk (i - 1)) j
termination_by i
decreasing_by all_goals omega

theorem fipsKeyWord_lt {key : List (BitVec 8)} {nk i : Nat} (h : i < nk) :
    fipsKeyWord key nk i = fun j => key.getD (4 * i + j.val) 0 := by
  rw [fipsKeyWord, if_pos (.inl h)]

theorem fipsKeyWord_ge {key : List (BitVec 8)} {nk i : Nat} (h0 : 0 < nk) (h : nk ≤ i) :
    fipsKeyWord key nk i =
      fun j => fipsKeyWord key nk (i - nk) j ^^^ fipsTemp nk i (fipsKeyWord key nk (i - 1)) j := by
  rw [fipsKeyWord, if_neg (by omega)]

/-! ### The code's key schedule -/

/-- `((uint32_t *)key)[i]` on a little-endian host, the aligned load path. -/
def loadWord (key : List (BitVec 8)) (i : Nat) : BitVec 32 :=
  wordOf (key.getD (4 * i) 0) (key.getD (4 * i + 1) 0) (key.getD (4 * i + 2) 0)
    (key.getD (4 * i + 3) 0)

/-- `ptr_to_le32(p)`: the little-endian word at byte `p`.  Modelled from the spec: the
    helper is not in the sources. -/
def ptrToLe32 (key : List (BitVec 8)) (p : Nat) : BitVec 32 :=
  wordOf (key.getD p 0) (key.getD (p + 1) 0) (key.getD (p + 2) 0) (key.getD (p + 3) 0)

/-- The body of the expansion loop of `aes_setkey` for word `i` on `x = w[i - 1]`: the word
    XORed into `w[i - nk]` (`RotWord` as `ror32(x, 8)`, `SubWord` as `aes_sub_word`) and the
    next `rcon`, multiplied by `x` after each use. -/
def aesSetkeyStep (nk i : Nat) (x rcon : BitVec 32) : BitVec 32 × BitVec 32 :=
  if i % nk = 0 then (aesSubWord (ror32 x 8) ^^^ rcon, gfMul2 rcon)
  else if 6 < nk ∧ i % nk = 4 then (aesSubWord x, rcon) else (x, rcon)

/-- The expansion loop of `aes_setkey` from word `i` with `k` words left. -/
def aesSetkeyLoop (nk : Nat) : Nat → Nat → List (BitVec 32) → BitVec 32 → List (BitVec 32)
  | 0, _, w, _ => w
  | k + 1, i, w, rcon =>
    if nk = 0 then w
    else
      let xr := aesSetkeyStep nk i (w.getD (i - 1) 0) rcon
      aesSetkeyLoop nk k (i + 1) (w ++ [w.getD (i - nk) 0 ^^^ xr.1]) xr.2

/-- `aes_setkey` (`aes_key_expansion_scr`) for a key of `nk` words and `nr` rounds: the key
    words, read with the `uint32_t` load when `key` is 4-byte aligned and with
    `ptr_to_le32` otherwise, then `4 (nr + 1) - nk` expanded words from `rcon = 1`. -/
def aesSetkey (nk nr : Nat) (aligned : Bool) (key : List (BitVec 8)) : List (BitVec 32) :=
  aesSetkeyLoop nk (4 * (nr + 1) - nk) nk
    ((List.range nk).map fun i => if aligned then loadWord key i else ptrToLe32 key (4 * i)) 1

/-- `aes_key_expansion_scr`: `aes_setkey` on the context's `nk` and `nr`. -/
def aesKeyExpansionScr (nk nr : Nat) (aligned : Bool) (key : List (BitVec 8)) :
    List (BitVec 32) :=
  aesSetkey nk nr aligned key

/-! ### The round functions are FIPS-197's -/

theorem aesSubBytes_eq_fips (s : AesState) : aesSubBytes s = fipsSubBytes s := rfl

theorem aesShiftRows_eq_fips (s : AesState) : aesShiftRows s = fipsShiftRows s :=
  aesShiftRows_eq s

theorem colWord_fipsMixColumns (s : AesState) (c : Fin 4) :
    colWord (fipsMixColumns s) c = aesMixOneColumn (colWord s c) := by
  simp only [colWord, fipsMixColumns, aesMixOneColumn_wordOf, mul2, mul3, xtime_xor, Fin.isValue,
    Fin.reduceAdd]
  congr 1 <;> ac_rfl

theorem aesMixColumns_eq_fips (s : AesState) : aesMixColumns s = fipsMixColumns s := by
  funext c r
  rw [aesMixColumns, ← colWord_fipsMixColumns, byteOf_colWord]

theorem colWord_fipsAddRoundKey (s : AesState) (v : Nat → FipsWord) (rnd : Nat) (c : Fin 4) :
    colWord (fipsAddRoundKey s v rnd) c = colWord s c ^^^ toWord (v (4 * rnd + c)) := by
  simp [colWord, fipsAddRoundKey, toWord]

theorem aesAddRoundKey_toWord (s : AesState) (v : Nat → FipsWord) (rnd : Nat) :
    aesAddRoundKey s (fun i => toWord (v i)) rnd = fipsAddRoundKey s v rnd := by
  funext c r
  rw [aesAddRoundKey, ← byteOf_colWord (fipsAddRoundKey s v rnd), colWord_fipsAddRoundKey,
    byteOf_xor, byteOf_colWord]

/-- **The block function is FIPS-197 `Cipher()`.**  For every schedule of FIPS-197 words,
    stored as little-endian `uint32_t`, every `nr ≥ 1` and every state, `aes_cipher_scr`
    computes `Cipher()`. -/
theorem aesCipherScr_eq_fipsCipher (v : Nat → FipsWord) {nr : Nat} (hnr : 0 < nr)
    (s : AesState) : aesCipherScr (fun i => toWord (v i)) nr s = fipsCipher v nr s := by
  simp only [aesCipherScr, fipsCipher, max_eq_left hnr, aesAddRoundKey_toWord,
    aesSubBytes_eq_fips, aesShiftRows_eq_fips, aesMixColumns_eq_fips]

/-- `aes_cipher_scr` reads the schedule only at words `0 .. 4 (nr + 1) - 1`. -/
theorem aesCipherScr_congr {w w' : Nat → BitVec 32} {nr : Nat} (hnr : 0 < nr)
    (h : ∀ i < 4 * (nr + 1), w i = w' i) (s : AesState) :
    aesCipherScr w nr s = aesCipherScr w' nr s := by
  have hark : ∀ rnd ≤ nr, ∀ s, aesAddRoundKey s w rnd = aesAddRoundKey s w' rnd := by
    intro rnd hr s
    funext c r
    simp only [aesAddRoundKey, h (4 * rnd + c) (by omega)]
  simp only [aesCipherScr, max_eq_left hnr, hark 0 (Nat.zero_le _), hark nr le_rfl]
  refine congrArg (fun t => aesAddRoundKey (aesShiftRows (aesSubBytes t)) w' nr)
    (List.foldl_ext _ _ _ fun s rnd hm => hark rnd ?_ _)
  simp only [List.mem_range'_1] at hm
  omega

/-! ### The key schedule is FIPS-197's -/

theorem toWord_xor (u v : FipsWord) : toWord (fun j => u j ^^^ v j) = toWord u ^^^ toWord v := by
  simp [toWord]

theorem toWord_subWord (v : FipsWord) : toWord (subWord v) = aesSubWord (toWord v) := by
  simp [toWord, subWord, aesSubWord, aesSubByte, fipsSBox]

theorem toWord_rotWord (v : FipsWord) : toWord (rotWord v) = ror32 (toWord v) 8 := by
  simp [toWord, rotWord]

/-- The running `rcon` of `aes_setkey` after `n` uses. -/
def rconWord (n : Nat) : BitVec 32 := wordOf (xtime^[n] 1) 0 0 0

theorem gfMul2_rconWord (n : Nat) : gfMul2 (rconWord n) = rconWord (n + 1) := by
  simp only [rconWord, gfMul2_wordOf, xtime_zero, Function.iterate_succ_apply']

/-- The quotient `i / nk` steps by one exactly at the multiples of `nk`. -/
theorem div_eq_pred_div {i nk : Nat} (hi : 0 < i) :
    i / nk = (i - 1) / nk + if i % nk = 0 then 1 else 0 := by
  have := Nat.succ_div (i - 1) nk
  rw [Nat.sub_add_cancel hi] at this
  simpa [Nat.dvd_iff_mod_eq_zero] using this

/-- One pass of the loop: on `w[i - 1]` and the running `rcon`, the code's body computes
    FIPS-197 `temp`, and leaves `rcon` at the value for word `i + 1`. -/
theorem aesSetkeyStep_eq {nk i : Nat} (hi : 0 < i) (t : FipsWord) :
    aesSetkeyStep nk i (toWord t) (rconWord ((i - 1) / nk)) =
      (toWord (fipsTemp nk i t), rconWord (i / nk)) := by
  rw [div_eq_pred_div hi, aesSetkeyStep, fipsTemp]
  by_cases h1 : i % nk = 0
  · have : i / nk - 1 = (i - 1) / nk := by rw [div_eq_pred_div hi]; simp [h1]
    simp only [h1, ite_true, toWord_xor, toWord_subWord, toWord_rotWord, gfMul2_rconWord]
    rw [rconWord, ← this]; rfl
  · by_cases h2 : 6 < nk ∧ i % nk = 4
    · simp [h1, h2, toWord_subWord]
    · simp [h1, h2]

/-- The first `n` words of the FIPS-197 schedule, stored as the code stores them. -/
def fipsSchedule (key : List (BitVec 8)) (nk n : Nat) : List (BitVec 32) :=
  (List.range n).map fun j => toWord (fipsKeyWord key nk j)

variable (key : List (BitVec 8)) {nk : Nat}

theorem fipsSchedule_succ (n : Nat) :
    fipsSchedule key nk (n + 1) = fipsSchedule key nk n ++ [toWord (fipsKeyWord key nk n)] := by
  simp [fipsSchedule, List.range_succ]

theorem getD_fipsSchedule {i n : Nat} (h : i < n) :
    (fipsSchedule key nk n).getD i 0 = toWord (fipsKeyWord key nk i) := by
  simp [fipsSchedule, h]

/-- The loop invariant: from word `i` on, with the first `i` words and the running `rcon`
    in place, the loop appends the FIPS-197 words up to `i + k`. -/
theorem aesSetkeyLoop_eq (h0 : 0 < nk) : ∀ k i, nk ≤ i →
    aesSetkeyLoop nk k i (fipsSchedule key nk i) (rconWord ((i - 1) / nk)) =
      fipsSchedule key nk (i + k)
  | 0, i, _ => rfl
  | k + 1, i, hi => by
    rw [aesSetkeyLoop, if_neg (by omega)]
    dsimp only
    rw [getD_fipsSchedule _ (by omega), getD_fipsSchedule _ (by omega), aesSetkeyStep_eq (by omega),
      ← toWord_xor, ← fipsKeyWord_ge h0 hi, ← fipsSchedule_succ, ← Nat.add_assoc,
      Nat.add_right_comm]
    exact aesSetkeyLoop_eq h0 k (i + 1) (by omega)

theorem initialWords_eq (aligned : Bool) :
    (List.range nk).map (fun i => if aligned then loadWord key i else ptrToLe32 key (4 * i)) =
      fipsSchedule key nk nk := by
  refine List.map_congr_left fun i hi => ?_
  rw [fipsKeyWord_lt (List.mem_range.mp hi)]
  cases aligned <;> rfl

/-- **`aes_setkey` writes the FIPS-197 schedule**, on both key-load paths, for every key and
    every `nk ≥ 1` and `nr` with `nk ≤ 4 (nr + 1)`. -/
theorem aesSetkey_eq {nr : Nat} (h0 : 0 < nk) (h : nk ≤ 4 * (nr + 1)) (aligned : Bool) :
    aesSetkey nk nr aligned key = fipsSchedule key nk (4 * (nr + 1)) := by
  have hrcon : (1 : BitVec 32) = rconWord ((nk - 1) / nk) := by
    rw [Nat.div_eq_of_lt (by omega)]; rfl
  rw [aesSetkey, initialWords_eq, hrcon, aesSetkeyLoop_eq key h0 _ nk le_rfl,
    Nat.add_sub_cancel' h]

/-- The cipher key of FIPS-197 Appendix A.1. -/
def fips197Key128 : List (BitVec 8) :=
  [0x2b, 0x7e, 0x15, 0x16, 0x28, 0xae, 0xd2, 0xa6, 0xab, 0xf7, 0x15, 0x88, 0x09, 0xcf, 0x4f, 0x3c]

/-- **The side-channel-resistant AES is FIPS-197.**  For the three key sizes,
    `aes_key_expansion_scr` writes the FIPS-197 `KeyExpansion()` words (on the aligned and on
    the unaligned key-load path), and `aes_cipher_scr` with that schedule maps every block to
    FIPS-197 `Cipher()` under the key.  Bytes are in FIPS-197 order: `s c r` is byte
    `4 c + r` of the block. -/
theorem aesKeyExpansionScr_eq_fips197 {nk nr : Nat} (hk : (nk, nr) ∈ [(4, 10), (6, 12), (8, 14)])
    (aligned : Bool) (key : List (BitVec 8)) :
    aesKeyExpansionScr nk nr aligned key = fipsSchedule key nk (4 * (nr + 1)) ∧
      ∀ s, aesCipherScr (fun i => (aesKeyExpansionScr nk nr aligned key).getD i 0) nr s =
        fipsCipher (fipsKeyWord key nk) nr s := by
  have h : 0 < nk ∧ nk ≤ 4 * (nr + 1) ∧ 0 < nr := by
    simp only [List.mem_cons, Prod.mk.injEq, List.not_mem_nil, or_false] at hk
    omega
  have hw := aesSetkey_eq key h.1 h.2.1 aligned
  refine ⟨hw, fun s => ?_⟩
  rw [aesKeyExpansionScr, hw, ← aesCipherScr_eq_fipsCipher _ h.2.2]
  exact aesCipherScr_congr h.2.2 (fun i hi => getD_fipsSchedule key hi) s

/-- The FIPS-197 Appendix A.1 key, on the aligned path. -/
theorem aesKeyExpansionScr_eq_fips197_appendixA :
    (4, 10) ∈ [(4, 10), (6, 12), (8, 14)] ∧
      (aesKeyExpansionScr 4 10 true fips197Key128 = fipsSchedule fips197Key128 4 44 ∧
      ∀ s, aesCipherScr (fun i => (aesKeyExpansionScr 4 10 true fips197Key128).getD i 0) 10 s =
        fipsCipher (fipsKeyWord fips197Key128 4) 10 s) :=
  ⟨by decide, aesKeyExpansionScr_eq_fips197 (by decide) true fips197Key128⟩

end Leancrypto.Aes
