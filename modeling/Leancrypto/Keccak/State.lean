import Mathlib
import Leancrypto.Bytes

namespace Leancrypto.Keccak

/-!
# Keccak glue — the state, its byte view, and the reference sponge

The ARMv8 glue (`keccak_arm_asm_absorb_internal`, `keccak_arm_asm_squeeze_internal`)
reads and writes the 25 lanes of `struct lc_sha3_224_state` only byte-wise: it XORs
input and padding bytes in with `sha3_fill_state_bytes` and extracts output bytes as
`(uint8_t)(state[i / 8] >> 8 * (i % 8))`.  We model the lanes through this
little-endian byte view, `KeccakState`, and leave the permutation `f` a parameter, as
the glue does (it receives `keccakf1600` as a function pointer).

* `sha3FillStateBytes` — the byte-wise XOR of a string into the lanes at an offset;
* `Sha3State` — the context fields the glue reads and writes;
* `Absorbing`, `refAbsorb` — the reference absorbing phase: a fold of a one-byte step
  that XORs each complete `r`-byte block into the rate and permutes once, keeping the
  incomplete tail pending (`tail_lt`: the tail is always shorter than a block);
* `padBytes`, `spongeLanes`, `spongeStream` — the reference sponge
  `SPONGE[f, pad, r](m)`: pad10*1 with the domain bits in `padding`, absorption of the
  padded message, and output byte `k` as byte `k mod r` of `f^[k / r]` of the lanes.
-/

/-- The 25 lanes of the Keccak-p[1600] state, through their little-endian byte view. -/
abbrev KeccakState := Fin 200 → UInt8

/-- Byte `i` of the lanes, `(uint8_t)(state[i / 8] >> 8 * (i % 8))`; `0` past the state. -/
def byteAt (A : KeccakState) (i : Nat) : UInt8 :=
  if h : i < 200 then A ⟨i, h⟩ else 0

/-- `state[i] ^= b` on the byte view. -/
def xorByte (A : KeccakState) (i : Nat) (b : UInt8) : KeccakState :=
  fun k => if k.val = i then A k ^^^ b else A k

/-- `sha3_fill_state_bytes(state, in, offset, len)`: XOR `in` into the lanes starting at
    byte `offset`, one byte at a time (the loop of `keccakf1600_add_bytes`). -/
def sha3FillStateBytes (A : KeccakState) (offset : Nat) : List UInt8 → KeccakState
  | [] => A
  | b :: bs => sha3FillStateBytes (xorByte A offset b) (offset + 1) bs

/-- The byte extraction loop: `len` bytes of the lanes starting at byte `offset`. -/
def extractBytes (A : KeccakState) (offset len : Nat) : List UInt8 :=
  (List.range len).map fun k => byteAt A (offset + k)

@[simp] theorem sha3FillStateBytes_nil (A : KeccakState) (offset : Nat) :
    sha3FillStateBytes A offset [] = A := rfl

@[simp] theorem sha3FillStateBytes_cons (A : KeccakState) (offset : Nat) (b : UInt8)
    (bs : List UInt8) :
    sha3FillStateBytes A offset (b :: bs) = sha3FillStateBytes (xorByte A offset b) (offset + 1) bs :=
  rfl

@[simp] theorem length_extractBytes (A : KeccakState) (offset len : Nat) :
    (extractBytes A offset len).length = len := by
  simp [extractBytes]

/-- Filling a string in two pieces fills the second piece where the first one ends. -/
theorem sha3FillStateBytes_append (A : KeccakState) (offset : Nat) (xs ys : List UInt8) :
    sha3FillStateBytes A offset (xs ++ ys) =
      sha3FillStateBytes (sha3FillStateBytes A offset xs) (offset + xs.length) ys := by
  induction xs generalizing A offset with
  | nil => rfl
  | cons x xs ih => simp [ih, Nat.add_assoc, Nat.add_comm 1]

@[simp] theorem xorByte_zero (A : KeccakState) (i : Nat) : xorByte A i 0 = A := by
  funext k; simp [xorByte]

theorem xorByte_xorByte (A : KeccakState) (i : Nat) (a b : UInt8) :
    xorByte (xorByte A i a) i b = xorByte A i (a ^^^ b) := by
  funext k; by_cases h : k.val = i <;> simp [xorByte, h, uint8_xor_assoc]

/-- Byte `b` of the filled lanes: the old byte, XORed with byte `b - offset` of the string
    when `b` lies at or after `offset`. -/
theorem sha3FillStateBytes_apply (A : KeccakState) (offset : Nat) (xs : List UInt8) (b : Fin 200) :
    sha3FillStateBytes A offset xs b =
      A b ^^^ (if offset ≤ b.val then xs.getD (b.val - offset) 0 else 0) := by
  induction xs generalizing A offset with
  | nil => simp
  | cons x xs ih =>
    rw [sha3FillStateBytes_cons, ih, xorByte]
    rcases Nat.lt_trichotomy b.val offset with h | h | h
    · simp [show b.val ≠ offset by omega, show ¬ offset ≤ b.val by omega,
        show ¬ offset + 1 ≤ b.val by omega]
    · simp [h]
    · rw [if_neg (by omega), if_pos (by omega), if_pos (by omega),
        show b.val - offset = b.val - (offset + 1) + 1 by omega, List.getD_cons_succ]

/-- XORing zero bytes leaves the lanes as they are. -/
@[simp] theorem sha3FillStateBytes_replicate_zero (A : KeccakState) (offset n : Nat) :
    sha3FillStateBytes A offset (List.replicate n 0) = A := by
  induction n generalizing offset with
  | zero => rfl
  | succ n ih => simp [List.replicate_succ, ih]

/-! ### Rates and the context -/

/-- A sponge rate: the `uint8_t r` of the context, a positive number of bytes inside the
    200-byte state (144, 136, 104, 72 for SHA3-224..512, 168 and 136 for SHAKE). -/
structure Rate where
  val : Nat
  pos : 0 < val
  lt : val < 200

/-- `struct lc_sha3_224_state`: the fields the ARMv8 glue reads and writes. -/
structure Sha3State where
  state : KeccakState
  msgLen : Nat
  digestsize : Nat
  r : Rate
  padding : UInt8
  squeezeMore : Bool
  offset : Nat

/-- Modelled from the spec: the rate of SHAKE-256, 136 bytes. -/
def shake256Rate : Rate := ⟨136, by decide, by decide⟩

/-- Modelled from the spec: the context `shake_256_init` leaves for a request of
    `digestsize` bytes — zero lanes, rate 136, padding byte `0x1f`, nothing absorbed or
    squeezed yet. -/
def shake256Init (digestsize : Nat) : Sha3State :=
  { state := fun _ => 0, msgLen := 0, digestsize := digestsize, r := shake256Rate,
    padding := 0x1f, squeezeMore := false, offset := 0 }

/-! ### The reference absorbing phase -/

variable (f : KeccakState → KeccakState) (r : Rate)

/-- A reference absorbing state: the lanes after the complete blocks, and the pending
    tail of the message, shorter than a block. -/
@[ext] structure Absorbing (r : Rate) where
  lanes : KeccakState
  tail : List UInt8
  tail_lt : tail.length < r.val

/-- The absorbing state before any byte: no pending tail. -/
def Absorbing.init (A : KeccakState) : Absorbing r := ⟨A, [], r.pos⟩

/-- The lanes a reference state stands for: the pending tail XORed in at byte `0`. -/
def Absorbing.toLanes {r : Rate} (s : Absorbing r) : KeccakState :=
  sha3FillStateBytes s.lanes 0 s.tail

/-- Absorb one byte: append it to the tail; a tail that reaches `r` bytes is XORed into
    the rate and followed by one permutation. -/
def absorbByte (s : Absorbing r) (b : UInt8) : Absorbing r :=
  if h : s.tail.length + 1 = r.val then ⟨f (sha3FillStateBytes s.lanes 0 (s.tail ++ [b])), [], r.pos⟩
  else ⟨s.lanes, s.tail ++ [b], by have := s.tail_lt; simp; omega⟩

/-- The reference absorb of a message. -/
def refAbsorb (s : Absorbing r) (m : List UInt8) : Absorbing r := m.foldl (absorbByte f r) s

@[simp] theorem refAbsorb_nil (s : Absorbing r) : refAbsorb f r s [] = s := rfl

/-- Absorbing in two pieces is absorbing the concatenation. -/
theorem refAbsorb_append (s : Absorbing r) (m₁ m₂ : List UInt8) :
    refAbsorb f r s (m₁ ++ m₂) = refAbsorb f r (refAbsorb f r s m₁) m₂ :=
  List.foldl_append _ _ _ _

/-- Unfolding lemma: the last byte of a piece is absorbed last. -/
theorem refAbsorb_concat (s : Absorbing r) (c : List UInt8) (b : UInt8) :
    refAbsorb f r s (c ++ [b]) = absorbByte f r (refAbsorb f r s c) b := by
  simp [refAbsorb]

/-- A piece that does not complete the block only extends the tail. -/
theorem refAbsorb_of_lt (s : Absorbing r) (c : List UInt8) (h : s.tail.length + c.length < r.val) :
    (refAbsorb f r s c).lanes = s.lanes ∧ (refAbsorb f r s c).tail = s.tail ++ c := by
  induction c using List.reverseRecOn with
  | nil => simp
  | append_singleton c b ih =>
    simp only [List.length_append, List.length_singleton] at h
    obtain ⟨h₁, h₂⟩ := ih (by omega)
    rw [refAbsorb_concat, absorbByte, dif_neg (by rw [h₂, List.length_append]; omega)]
    simp [h₁, h₂]

/-- A piece that exactly completes the block XORs the block in and permutes. -/
theorem refAbsorb_of_eq (s : Absorbing r) (c : List UInt8) (h : s.tail.length + c.length = r.val) :
    refAbsorb f r s c = ⟨f (sha3FillStateBytes s.lanes 0 (s.tail ++ c)), [], r.pos⟩ := by
  have := s.tail_lt
  obtain rfl | ⟨c, b, rfl⟩ := List.eq_nil_or_concat c
  · simp at h; omega
  simp only [List.concat_eq_append, List.length_append, List.length_singleton] at h ⊢
  obtain ⟨h₁, h₂⟩ := refAbsorb_of_lt f r s c (by omega)
  rw [refAbsorb_concat, absorbByte, dif_pos (by rw [h₂, List.length_append]; omega)]
  simp [h₁, h₂]

/-! ### Padding and the output stream -/

/-- pad10*1 of FIPS 202 on bytes, for a message whose last block holds `t < r` bytes:
    the byte `padding` (the domain bits followed by the first pad bit) at position `t`,
    the final pad bit as `0x80` in byte `r - 1` of the last block.  When both fall on byte
    `r - 1` and `padding` already uses its top bit, the final bit needs a block of its own. -/
def padBytes (padding : UInt8) (t : Nat) : List UInt8 :=
  if t + 1 = r.val then
    if 0x80 ≤ padding then padding :: List.replicate (r.val - 1) 0 ++ [0x80]
    else [padding ^^^ 0x80]
  else padding :: List.replicate (r.val - t - 2) 0 ++ [0x80]

/-- The padding completes the last block: with the `t` pending bytes it fills one or two
    whole blocks. -/
theorem length_padBytes (padding : UInt8) {t : Nat} (ht : t < r.val) :
    (t + (padBytes r padding t).length) % r.val = 0 := by
  unfold padBytes
  split_ifs with h₁ h₂
  · simp; rw [show t + (r.val - 1 + 1 + 1) = 0 + 2 * r.val by omega, Nat.add_mul_mod_self_right]; rfl
  · simp [h₁]
  · simp; rw [show t + (r.val - t - 2 + 1 + 1) = r.val by omega, Nat.mod_self]

/-- Byte `i` of the padding when both pad bits have a byte of their own: `padding` first,
    `0x80` in byte `r - 1` of the block, zero elsewhere and past the end. -/
theorem padBytes_getD (padding : UInt8) {t : Nat} (ht : t + 2 ≤ r.val) (i : Nat) :
    (padBytes r padding t).getD i 0 =
      if i = 0 then padding else if i + t + 1 = r.val then 0x80 else 0 := by
  rw [padBytes, if_neg (by omega)]
  rcases i with _ | i
  · rfl
  rw [List.cons_append, List.getD_cons_succ, if_neg i.succ_ne_zero]
  rcases Nat.lt_or_ge i (r.val - t - 2) with h | h
  · rw [List.getD_append _ _ _ _ (by simpa using h), List.getD_eq_getElem?_getD,
      List.getElem?_getD_replicate_default_eq, if_neg (by omega)]
  · rw [List.getD_append_right _ _ _ _ (by simpa using h), List.length_replicate]
    rcases Nat.eq_or_lt_of_le h with h | h
    · rw [← h, Nat.sub_self, if_pos (by omega)]; rfl
    · rw [List.getD_eq_default _ _ (by simp; omega), if_neg (by omega)]

/-- The lanes after the padding of a reference absorbing state: the state the output
    stream starts from. -/
def padLanes (padding : UInt8) (s : Absorbing r) : KeccakState :=
  (refAbsorb f r s (padBytes r padding s.tail.length)).lanes

/-- The lanes after absorbing `m` and its padding: the state the output stream starts
    from. -/
def spongeLanes (A : KeccakState) (padding : UInt8) (m : List UInt8) : KeccakState :=
  (refAbsorb f r (Absorbing.init r A) (m ++ padBytes r padding (m.length % r.val))).toLanes

/-- The tail of a reference state grows by the absorbed bytes, modulo a block. -/
theorem length_tail_refAbsorb (s : Absorbing r) (c : List UInt8) :
    (refAbsorb f r s c).tail.length = (s.tail.length + c.length) % r.val := by
  induction c generalizing s with
  | nil => simp [Nat.mod_eq_of_lt s.tail_lt]
  | cons b c ih =>
    have hb : (absorbByte f r s b).tail.length = (s.tail.length + 1) % r.val := by
      have := s.tail_lt
      unfold absorbByte
      split
      · simp [*]
      · simp; rw [Nat.mod_eq_of_lt (by omega)]
    simp only [refAbsorb, List.foldl_cons] at ih ⊢
    rw [ih, hb, Nat.mod_add_mod, List.length_cons, Nat.add_assoc, Nat.add_comm 1]

/-- The sponge lanes are the padded lanes of the reference state after `m`. -/
theorem spongeLanes_eq_padLanes (A : KeccakState) (padding : UInt8) (m : List UInt8) :
    spongeLanes f r A padding m = padLanes f r padding (refAbsorb f r (Absorbing.init r A) m) := by
  have htail : (refAbsorb f r (Absorbing.init r A) m).tail.length = m.length % r.val := by
    rw [length_tail_refAbsorb]; simp [Absorbing.init]
  have hnil : (refAbsorb f r (refAbsorb f r (Absorbing.init r A) m)
      (padBytes r padding (m.length % r.val))).tail = [] := by
    rw [← List.length_eq_zero, length_tail_refAbsorb, htail,
      length_padBytes r padding (Nat.mod_lt _ r.pos)]
  rw [spongeLanes, padLanes, refAbsorb_append, Absorbing.toLanes, hnil, htail]
  rfl

/-- Byte `k` of the reference output stream from lanes `S`: byte `k mod r` of
    `f^[k / r] S` (FIPS 202, Algorithm 8, steps 7–10). -/
def spongeStream (S : KeccakState) (k : Nat) : UInt8 :=
  byteAt (f^[k / r.val] S) (k % r.val)

/-- Bytes `p .. p + n - 1` of the stream. -/
def streamBytes (S : KeccakState) (p n : Nat) : List UInt8 :=
  (List.range n).map fun k => spongeStream f r S (p + k)

@[simp] theorem length_streamBytes (S : KeccakState) (p n : Nat) :
    (streamBytes f r S p n).length = n := by
  simp [streamBytes]

/-- Consecutive segments of the stream concatenate. -/
theorem streamBytes_add (S : KeccakState) (p m n : Nat) :
    streamBytes f r S p (m + n) = streamBytes f r S p m ++ streamBytes f r S (p + m) n := by
  simp only [streamBytes, List.range_add, List.map_append, List.map_map]
  congr 1
  exact List.map_congr_left fun k _ => by simp [Nat.add_assoc]

end Leancrypto.Keccak
