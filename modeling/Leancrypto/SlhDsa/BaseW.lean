import Mathlib
import Leancrypto.SlhDsa.Wots

namespace Leancrypto.SlhDsa

/-!
# SLH-DSA WOTS+ — the chain lengths as base-`w` digits

`chain_lengths_c` turns an `n`-byte message into `len1` base-`w` digits with `base_w`, and
appends the `len2` digits of the checksum `Σ (w - 1 - l_i)` that `wots_checksum` computes,
shifts and converts to bytes.  We read every digit string as the big-endian number it
stands for.

* `bytesVal`, `digitsVal` — the big-endian value of a byte string and of a digit string;
* `digitsVal_baseW_go` — the loop invariant of `base_w`: the `k` digits it emits are the top
  `k log_w` bits of the unread bits of the current byte followed by the next bytes;
* `chainLengthsC_digits` — the first `len1` lengths are the base-`w` digits of the message,
  the last `len2` those of the checksum, none lost to the shift or the byte conversion,
  and every length is below `w`.
-/

variable (P : WotsParams)

/-! ### Values of byte and digit strings -/

/-- The big-endian value of the `m` bytes of `input` from `inp` on. -/
def bytesVal (input : Nat → UInt8) : Nat → Nat → Nat
  | _, 0 => 0
  | inp, m + 1 => (input inp).toNat * 256 ^ m + bytesVal input (inp + 1) m

/-- The big-endian value of a string of base-`w` digits. -/
def digitsVal (w : Nat) : List Nat → Nat
  | [] => 0
  | d :: ds => d * w ^ ds.length + digitsVal w ds

theorem bytesVal_lt (input : Nat → UInt8) (inp m : Nat) : bytesVal input inp m < 2 ^ (8 * m) := by
  induction m generalizing inp with
  | zero => simp [bytesVal]
  | succ m ih =>
    have hb : (input inp).toNat < 256 := (input inp).toBitVec.isLt
    have := ih (inp + 1)
    rw [bytesVal, show 8 * (m + 1) = 8 + 8 * m by ring, pow_add,
      show (256 : Nat) ^ m = 2 ^ (8 * m) by rw [pow_mul]; rfl]
    nlinarith

/-! ### The `base_w` loop -/

theorem baseW_go_succ_of_ne (input : Nat → UInt8) (k inp : Nat) (total : UInt8) {bits : Nat}
    (h : bits ≠ 0) :
    baseW.go P input (k + 1) inp total bits =
      ((total.toNat >>> (bits - P.logW)) &&& (P.w - 1)) ::
        baseW.go P input k inp total (bits - P.logW) := by
  simp [baseW.go, h]

/-- With no bits left, the loop reads the next byte and goes on with all eight of its bits. -/
theorem baseW_go_succ_zero (input : Nat → UInt8) (k inp : Nat) (total : UInt8) :
    baseW.go P input (k + 1) inp total 0 = baseW.go P input (k + 1) (inp + 1) (input inp) 8 := by
  simp [baseW.go]

/-- The top `L` of the low `b` bits of `t`, followed by the low `b - L` bits. -/
theorem mod_two_pow_split (t : Nat) {b L : Nat} (hL : L ≤ b) :
    t % 2 ^ b = t / 2 ^ (b - L) % 2 ^ L * 2 ^ (b - L) + t % 2 ^ (b - L) := by
  rw [show 2 ^ b = 2 ^ (b - L) * 2 ^ L by rw [← pow_add, Nat.sub_add_cancel hL], Nat.mod_mul]
  ring

/-- **The `base_w` loop invariant.**  With `log_w` dividing 8, `bits ≤ 8` unread bits of
    `total` and `m` further bytes from `inp` holding at least `k log_w` bits, the `k` digits
    the loop emits have the value of the top `k log_w` of those bits. -/
theorem digitsVal_baseW_go (hL : 0 < P.logW) (h8 : P.logW ∣ 8) (input : Nat → UInt8) (k : Nat) :
    ∀ inp total bits m, bits ≤ 8 → P.logW ∣ bits → k * P.logW ≤ bits + 8 * m →
      digitsVal P.w (baseW.go P input k inp total bits) =
        (total.toNat % 2 ^ bits * 2 ^ (8 * m) + bytesVal input inp m) /
          2 ^ (bits + 8 * m - k * P.logW) := by
  induction k with
  | zero =>
    intro inp total bits m _ _ _
    have hB := bytesVal_lt input inp m
    have ht := Nat.mod_lt total.toNat (Nat.two_pow_pos bits)
    rw [baseW.go, digitsVal, Nat.zero_mul, Nat.sub_zero, eq_comm, Nat.div_eq_of_lt]
    calc total.toNat % 2 ^ bits * 2 ^ (8 * m) + bytesVal input inp m
        < (total.toNat % 2 ^ bits + 1) * 2 ^ (8 * m) := by rw [add_one_mul]; omega
      _ ≤ 2 ^ bits * 2 ^ (8 * m) := Nat.mul_le_mul_right _ ht
      _ = 2 ^ (bits + 8 * m) := (pow_add _ _ _).symm
  | succ k ih =>
    have hkL : (k + 1) * P.logW = k * P.logW + P.logW := add_one_mul k P.logW
    -- one digit out of `bits > 0` unread bits
    have key : ∀ inp total bits m, 0 < bits → bits ≤ 8 → P.logW ∣ bits →
        (k + 1) * P.logW ≤ bits + 8 * m →
        digitsVal P.w (baseW.go P input (k + 1) inp total bits) =
          (total.toNat % 2 ^ bits * 2 ^ (8 * m) + bytesVal input inp m) /
            2 ^ (bits + 8 * m - (k + 1) * P.logW) := by
      intro inp total bits m hpos hb hdvd hk
      have hLb : P.logW ≤ bits := Nat.le_of_dvd hpos hdvd
      obtain ⟨e, he⟩ : ∃ e, bits + 8 * m = (k + 1) * P.logW + e :=
        ⟨_, (Nat.add_sub_cancel' hk).symm⟩
      rw [baseW_go_succ_of_ne P input k inp total (by omega), digitsVal, length_baseW_go,
        ih inp total (bits - P.logW) m (by omega) (Nat.dvd_sub' hdvd dvd_rfl) (by omega),
        show bits - P.logW + 8 * m - k * P.logW = e by omega,
        show bits + 8 * m - (k + 1) * P.logW = e by omega, WotsParams.w,
        Nat.shiftRight_eq_div_pow, Nat.and_pow_two_sub_one_eq_mod,
        mod_two_pow_split total.toNat hLb, ← pow_mul]
      -- the digit stands `e + k log_w` bits up
      have hpow : 2 ^ (bits - P.logW) * 2 ^ (8 * m) = 2 ^ e * 2 ^ (P.logW * k) := by
        rw [← pow_add, ← pow_add, Nat.mul_comm P.logW k]; congr 1; omega
      rw [show (total.toNat / 2 ^ (bits - P.logW) % 2 ^ P.logW * 2 ^ (bits - P.logW) +
          total.toNat % 2 ^ (bits - P.logW)) * 2 ^ (8 * m) + bytesVal input inp m =
          (total.toNat % 2 ^ (bits - P.logW) * 2 ^ (8 * m) + bytesVal input inp m) +
            2 ^ e * (total.toNat / 2 ^ (bits - P.logW) % 2 ^ P.logW * 2 ^ (P.logW * k)) by
          rw [← mul_assoc, mul_comm (2 ^ e), mul_assoc _ (2 ^ e), ← hpow]; ring,
        Nat.add_mul_div_left _ _ (Nat.two_pow_pos e), Nat.add_comm]
    intro inp total bits m hb hdvd hk
    rcases Nat.eq_zero_or_pos bits with rfl | hpos
    · -- no bits left: read the next byte
      obtain ⟨m, rfl⟩ : ∃ m', m = m' + 1 := ⟨m - 1, by omega⟩
      have hbyte : (input inp).toNat < 2 ^ 8 := (input inp).toBitVec.isLt
      rw [baseW_go_succ_zero, key (inp + 1) (input inp) 8 m (by decide) le_rfl h8 (by omega),
        Nat.mod_eq_of_lt hbyte, bytesVal, Nat.pow_zero, Nat.mod_one, Nat.zero_mul, Nat.zero_add,
        show (256 : Nat) ^ m = 2 ^ (8 * m) by rw [pow_mul]; rfl]
      congr 2
      omega
    · exact key inp total bits m hpos hb hdvd hk

theorem baseW_go_lt (input : Nat → UInt8) (k : Nat) :
    ∀ inp total bits, ∀ d ∈ baseW.go P input k inp total bits, d < P.w := by
  have hw : 0 < P.w := Nat.two_pow_pos _
  induction k with
  | zero => simp [baseW.go]
  | succ k ih =>
    intro inp total bits d hd
    simp only [baseW.go, List.mem_cons] at hd
    rcases hd with rfl | hd
    · exact lt_of_le_of_lt Nat.and_le_right (by omega)
    · exact ih _ _ _ d hd

/-! ### The checksum -/

/-- The `unsigned int` sum of `wots_checksum`, one reduction per term. -/
theorem foldl_add_mod (g : Nat → Nat) (M : Nat) (l : List Nat) :
    ∀ c, c < M → l.foldl (fun c d => (c + g d) % M) c = (c + (l.map g).sum) % M := by
  induction l with
  | nil => intro c hc; simp [Nat.mod_eq_of_lt hc]
  | cons d l ih =>
    intro c hc
    rw [List.foldl_cons, ih _ (Nat.mod_lt _ (by omega)), Nat.mod_add_mod, List.map_cons,
      List.sum_cons, Nat.add_assoc]

theorem getD_ullToBytes (outlen x : Nat) {i : Nat} (hi : i < outlen) :
    ((ullToBytes outlen x).getD i 0).toNat = x / 2 ^ (8 * (outlen - 1 - i)) % 256 := by
  simp [ullToBytes, hi, Nat.shiftRight_eq_div_pow]
  rfl

/-- `ull_to_bytes` writes the low `outlen` bytes of `x`, most significant first: any `m`
    of them from `inp` on are the matching bits of `x`. -/
theorem bytesVal_ullToBytes (outlen x : Nat) (m : Nat) :
    ∀ inp, inp + m ≤ outlen →
      bytesVal (fun i => (ullToBytes outlen x).getD i 0) inp m =
        x / 2 ^ (8 * (outlen - inp - m)) % 2 ^ (8 * m) := by
  induction m with
  | zero => intro inp _; simp [bytesVal, Nat.mod_one]
  | succ m ih =>
    intro inp h
    -- the bits of `x` from byte `inp` on
    have hy : x / 2 ^ (8 * (outlen - 1 - inp)) =
        x / 2 ^ (8 * (outlen - inp - (m + 1))) / 2 ^ (8 * m) := by
      rw [Nat.div_div_eq_div_mul, ← pow_add]; congr 2; omega
    rw [bytesVal, getD_ullToBytes _ _ (by omega), ih (inp + 1) (by omega), hy,
      show outlen - (inp + 1) - m = outlen - inp - (m + 1) by omega,
      show (256 : Nat) ^ m = 2 ^ (8 * m) by rw [pow_mul]; rfl,
      show 8 * (m + 1) = 8 * m + 8 by ring, pow_add, Nat.mod_mul, show (2 : Nat) ^ 8 = 256 from rfl]
    ring

/-- **Chain lengths as digits.**  When `log_w` divides 8, the `len1` digits cover the `n`
    message bytes, the checksum `Σ (w - 1 - l_i) ≤ len1 (w - 1)` has `len2` base-`w` digits
    and those fit in an `unsigned int`: the lengths are `len1 + len2` digits below `w`, the
    first `len1` are the big-endian base-`w` digits of the message, and the last `len2`
    those of the checksum of the first ones. -/
theorem chainLengthsC_digits (hL : 0 < P.logW) (h8 : P.logW ∣ 8)
    (hn : P.len1 * P.logW = 8 * P.n) (hcs : P.len1 * (P.w - 1) < P.w ^ P.len2)
    (h32 : P.len2 * P.logW ≤ 32) (msg : Nat → UInt8) :
    (chainLengthsC P msg).length = P.len1 + P.len2 ∧
    (∀ d ∈ chainLengthsC P msg, d < P.w) ∧
    digitsVal P.w ((chainLengthsC P msg).take P.len1) = bytesVal msg 0 P.n ∧
    digitsVal P.w ((chainLengthsC P msg).drop P.len1) =
      (((chainLengthsC P msg).take P.len1).map fun d => P.w - 1 - d).sum := by
  have hm : (baseW P msg P.len1).length = P.len1 := length_baseW_go P msg _ _ _ _
  rw [chainLengthsC, List.take_left' hm, List.drop_left' hm]
  refine ⟨by simp [hm, wotsChecksum, baseW, length_baseW_go], ?_, ?_, ?_⟩
  · intro d hd
    rcases List.mem_append.1 hd with hd | hd
    · exact baseW_go_lt P msg _ _ _ _ d hd
    · exact baseW_go_lt P _ _ _ _ _ d hd
  · rw [baseW, digitsVal_baseW_go P hL h8 msg P.len1 0 0 0 P.n (Nat.zero_le 8) (dvd_zero _) (by omega)]
    simp [hn]
  · -- the checksum is below `w ^ len2 = 2 ^ (len2 log_w)`, so it survives the shift and
    -- the `(len2 log_w + 7) / 8` bytes of `ull_to_bytes`
    set S := ((baseW P msg P.len1).map fun d => P.w - 1 - d).sum
    have hS : S ≤ P.len1 * (P.w - 1) := by
      have := List.sum_le_card_nsmul ((baseW P msg P.len1).map fun d => P.w - 1 - d) (P.w - 1)
        (by simp only [List.mem_map]; rintro _ ⟨d, -, rfl⟩; omega)
      simpa [hm] using this
    have hS2 : S < 2 ^ (P.len2 * P.logW) := by
      rw [Nat.mul_comm, pow_mul]; exact lt_of_le_of_lt hS hcs
    have hB : P.len2 * P.logW + (8 - P.len2 * P.logW % 8) % 8 = 8 * ((P.len2 * P.logW + 7) / 8) := by
      omega
    have hlt : S * 2 ^ ((8 - P.len2 * P.logW % 8) % 8) < 2 ^ (8 * ((P.len2 * P.logW + 7) / 8)) := by
      rw [← hB, pow_add]; exact Nat.mul_lt_mul_of_pos_right hS2 (Nat.two_pow_pos _)
    have h32' : 2 ^ (8 * ((P.len2 * P.logW + 7) / 8)) ≤ 2 ^ 32 :=
      Nat.pow_le_pow_right (by decide) (by omega)
    have hS32 : S < 2 ^ 32 :=
      lt_of_lt_of_le hS2 (Nat.pow_le_pow_right (by decide) h32)
    simp only [wotsChecksum, List.take_of_length_le hm.le]
    rw [foldl_add_mod _ _ _ 0 (Nat.two_pow_pos 32), Nat.zero_add, Nat.mod_eq_of_lt hS32,
      Nat.shiftLeft_eq, Nat.mod_eq_of_lt (lt_of_lt_of_le hlt h32'), baseW,
      digitsVal_baseW_go P hL h8 _ P.len2 0 0 0 ((P.len2 * P.logW + 7) / 8) (Nat.zero_le 8)
        (dvd_zero _) (by omega),
      bytesVal_ullToBytes _ _ _ 0 (by omega), Nat.sub_zero, Nat.sub_self, Nat.mul_zero, pow_zero,
      Nat.div_one, Nat.mod_eq_of_lt hlt]
    simp [show 8 * ((P.len2 * P.logW + 7) / 8) - P.len2 * P.logW =
      (8 - P.len2 * P.logW % 8) % 8 by omega]

theorem chainLengthsC_digits_128 :
    (0 < wotsParams128.logW ∧ wotsParams128.logW ∣ 8 ∧
      wotsParams128.len1 * wotsParams128.logW = 8 * wotsParams128.n ∧
      wotsParams128.len1 * (wotsParams128.w - 1) < wotsParams128.w ^ wotsParams128.len2 ∧
      wotsParams128.len2 * wotsParams128.logW ≤ 32) ∧
    (chainLengthsC wotsParams128 (fun _ => 0x1b)).length =
        wotsParams128.len1 + wotsParams128.len2 ∧
    (∀ d ∈ chainLengthsC wotsParams128 (fun _ => 0x1b), d < wotsParams128.w) ∧
    digitsVal wotsParams128.w ((chainLengthsC wotsParams128 (fun _ => 0x1b)).take wotsParams128.len1) =
        bytesVal (fun _ => 0x1b) 0 wotsParams128.n ∧
    digitsVal wotsParams128.w ((chainLengthsC wotsParams128 (fun _ => 0x1b)).drop wotsParams128.len1) =
      (((chainLengthsC wotsParams128 (fun _ => 0x1b)).take wotsParams128.len1).map
        fun d => wotsParams128.w - 1 - d).sum :=
  ⟨⟨by decide, by decide, by decide, by decide, by decide⟩,
    chainLengthsC_digits wotsParams128 (by decide) (by decide) (by decide) (by decide) (by decide) _⟩

end Leancrypto.SlhDsa
