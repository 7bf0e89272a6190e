import Leancrypto.Keccak.ArmAbsorb

namespace Leancrypto.Keccak

/-!
# Keccak glue — the squeezing phase of the ARMv8 back-end

`keccak_arm_asm_squeeze_internal` pads on its first call (`squeeze_more == 0`), then
hands out `digestsize` bytes per call.  `offset` counts the bytes of the current block
already handed out: a call first finishes that block byte-wise, and otherwise — when
`offset == 0` after an earlier call — permutes before the bulk squeeze, because the
previous call is taken to have used up its block.

* `keccakSqueeze` — the bulk squeeze, modelled from its contract, and its closed form
  `keccakSqueeze_eq`: `len` bytes of the stream from the current lanes;
* `squeezePad_state` — the padding of the first call is the reference pad10*1;
* `Squeezing` — the invariant after `p > 0` bytes: `offset = p mod r`, the lanes hold
  the block of byte `p - 1`;
* `squeezeCall_first`, `squeezeCall_squeezing` — the step lemmas for a request of
  `n > 0` bytes;
* `squeezeRun_stream` — requests of positive lengths concatenate to a prefix of the
  reference stream, and `offset` is the total modulo the rate;
* `squeezeRun_zero_first` — a first request of `0` bytes permutes the lanes although
  nothing was handed out, so the next request skips the first block of the stream.
-/

variable (f : KeccakState → KeccakState) (r : Rate)

/-- Modelled from the spec: the assembly bulk squeeze `lc_keccak_squeeze_arm_asm` (and its
    Crypto-Extension twin) is outside the sources; the glue relies on it emitting `len`
    bytes from the current lanes, one permutation between two blocks and none after the
    last. -/
def keccakSqueeze (A : KeccakState) (len : Nat) : KeccakState × List UInt8 :=
  if len ≤ r.val then (A, extractBytes A 0 len)
  else
    let rest := keccakSqueeze (f A) (len - r.val)
    (rest.1, extractBytes A 0 r.val ++ rest.2)
termination_by len
decreasing_by have := r.pos; omega

/-- Division by the rate of a position given as offset plus whole blocks. -/
private theorem div_mod_of_lt (x q : Nat) (hx : x < r.val) :
    (x + q * r.val) / r.val = q ∧ (x + q * r.val) % r.val = x :=
  ⟨by rw [Nat.add_mul_div_right _ _ r.pos, Nat.div_eq_of_lt hx, Nat.zero_add],
    by rw [Nat.add_mul_mod_self_right, Nat.mod_eq_of_lt hx]⟩

/-- Stream bytes inside the first block are bytes of the current lanes. -/
theorem streamBytes_of_le (S : KeccakState) (p len : Nat) (h : p + len ≤ r.val) :
    streamBytes f r S p len = extractBytes S p len := by
  simp only [streamBytes, extractBytes, spongeStream]
  refine List.map_congr_left fun k hk => ?_
  rw [List.mem_range] at hk
  rw [Nat.div_eq_of_lt (by omega), Nat.mod_eq_of_lt (by omega), Function.iterate_zero_apply]

theorem streamBytes_zero_of_le (S : KeccakState) {len : Nat} (h : len ≤ r.val) :
    streamBytes f r S 0 len = extractBytes S 0 len :=
  streamBytes_of_le f r S 0 len (by omega)

/-- Skipping `q` whole blocks of the stream is starting it from `f^[q]` of the lanes. -/
theorem spongeStream_add_mul (S : KeccakState) (q k : Nat) :
    spongeStream f r S (q * r.val + k) = spongeStream f r (f^[q] S) k := by
  have hr := r.pos
  simp only [spongeStream, Nat.add_comm (q * r.val), Nat.add_mul_div_right _ _ hr,
    Nat.add_mul_mod_self_right, Function.iterate_add_apply]

theorem streamBytes_add_mul (S : KeccakState) (q p n : Nat) :
    streamBytes f r S (q * r.val + p) n = streamBytes f r (f^[q] S) p n := by
  simp only [streamBytes, Nat.add_assoc, spongeStream_add_mul]

/-- **Closed form of the bulk squeeze**: the first `len` bytes of the stream from the
    lanes, which are left at the block of the last byte. -/
theorem keccakSqueeze_eq (A : KeccakState) (len : Nat) :
    keccakSqueeze f r A len = (f^[(len - 1) / r.val] A, streamBytes f r A 0 len) := by
  induction A, len using keccakSqueeze.induct f r with
  | case1 A len h =>
    rw [keccakSqueeze, if_pos h, Nat.div_eq_of_lt (by have := r.pos; omega),
      streamBytes_zero_of_le f r A h]
    rfl
  | case2 A len h ih =>
    rw [keccakSqueeze, if_neg h]
    simp only [ih]
    have hdiv : (len - 1) / r.val = (len - r.val - 1) / r.val + 1 := by
      have := Nat.add_mul_div_right (len - r.val - 1) 1 r.pos
      rw [Nat.one_mul, show len - r.val - 1 + r.val = len - 1 by omega] at this
      exact this
    have hsplit := streamBytes_add f r A 0 r.val (len - r.val)
    rw [Nat.add_sub_cancel' (by omega), Nat.zero_add] at hsplit
    have hshift := streamBytes_add_mul f r A 1 0 (len - r.val)
    rw [Nat.one_mul, Nat.add_zero, Function.iterate_one] at hshift
    rw [hdiv, Function.iterate_succ_apply, hsplit, streamBytes_zero_of_le f r A le_rfl, hshift]

/-! ### The glue -/

/-- The final round of the absorbing phase (the body of `if (!ctx->squeeze_more)`): the
    padding byte at `msg_len % r`, an extra permutation when it falls on byte `r - 1` with
    its top bit set, `0x80` into byte `r - 1`, and the permutation before the first
    squeeze. -/
def squeezePad (ctx : Sha3State) : Sha3State :=
  let blocksize := ctx.r.val
  let partialBlock := ctx.msgLen % blocksize
  let A := sha3FillStateBytes ctx.state partialBlock [ctx.padding]
  let A := if 0x80 ≤ ctx.padding ∧ partialBlock = blocksize - 1 then f A else A
  { ctx with state := f (xorByte A (blocksize - 1) 0x80), squeezeMore := true }

/-- The squeezing part of `keccak_arm_asm_squeeze_internal` (after the padding):
    `digestsize` bytes out, first byte-wise from the current block when `offset ≠ 0`,
    otherwise after a permutation when the call found `squeeze_more` already set. -/
def squeezeBytes (squeezeMore : Bool) (ctx : Sha3State) : Sha3State × List UInt8 :=
  let blocksize := ctx.r.val
  if ctx.offset ≠ 0 then
    let todo := min ctx.digestsize (blocksize - ctx.offset)
    let out := extractBytes ctx.state ctx.offset todo
    let digestLen := ctx.digestsize - todo
    let offset := (ctx.offset + todo) % blocksize
    if digestLen = 0 then ({ ctx with offset := offset }, out)
    else
      let sq := keccakSqueeze f ctx.r (f ctx.state) digestLen
      ({ ctx with state := sq.1, offset := offset + (digestLen + offset) % blocksize }, out ++ sq.2)
  else
    let A := if squeezeMore then f ctx.state else ctx.state
    let sq := keccakSqueeze f ctx.r A ctx.digestsize
    ({ ctx with state := sq.1, offset := ctx.offset + (ctx.digestsize + ctx.offset) % blocksize },
      sq.2)

/-- `keccak_arm_asm_squeeze_internal(ctx, digest, squeeze, keccakf1600)`: the padding on the
    first call, then `squeezeBytes` with `squeeze_more` as read on entry. -/
def keccakArmAsmSqueezeInternal (ctx : Sha3State) : Sha3State × List UInt8 :=
  squeezeBytes f ctx.squeezeMore (if ctx.squeezeMore then ctx else squeezePad f ctx)

/-- A squeeze request of `n` bytes: `ctx->digestsize = n`, then the squeeze. -/
def squeezeCall (ctx : Sha3State) (n : Nat) : Sha3State × List UInt8 :=
  keccakArmAsmSqueezeInternal f { ctx with digestsize := n }

/-- Successive requests: the context after them and their bytes, concatenated. -/
def squeezeRun : Sha3State → List Nat → Sha3State × List UInt8
  | ctx, [] => (ctx, [])
  | ctx, n :: ns =>
    let first := squeezeCall f ctx n
    let rest := squeezeRun first.1 ns
    (rest.1, first.2 ++ rest.2)

/-! ### The padding -/

private theorem sha3FillStateBytes_zeros_byte (A : KeccakState) (off k : Nat) (b : UInt8) :
    sha3FillStateBytes A off (List.replicate k 0 ++ [b]) = xorByte A (off + k) b := by
  rw [sha3FillStateBytes_append, sha3FillStateBytes_replicate_zero, List.length_replicate]; rfl

/-- **The padding is pad10*1.**  On a context standing for the reference state `s`, the
    padding round leaves the lanes of the reference absorb of `padBytes`, which completes
    the last block. -/
theorem squeezePad_state (ctx : Sha3State) (s : Absorbing ctx.r) (hl : ctx.state = s.toLanes)
    (ht : s.tail.length = ctx.msgLen % ctx.r.val) :
    (squeezePad f ctx).state =
      (refAbsorb f ctx.r s (padBytes ctx.r ctx.padding s.tail.length)).lanes := by
  have hlt := s.tail_lt
  have hfill : ∀ d, sha3FillStateBytes ctx.state s.tail.length d =
      sha3FillStateBytes s.lanes 0 (s.tail ++ d) := by
    intro d; rw [hl, Absorbing.toLanes, sha3FillStateBytes_append, Nat.zero_add]
  simp only [squeezePad, padBytes, ← ht, hfill]
  by_cases hlast : s.tail.length + 1 = ctx.r.val
  · by_cases hpad : 0x80 ≤ ctx.padding
    · -- the final bit needs a block of its own
      rw [if_pos ⟨hpad, by omega⟩, if_pos hlast, if_pos hpad,
        show ctx.padding :: List.replicate (ctx.r.val - 1) 0 ++ [0x80] =
          [ctx.padding] ++ (List.replicate (ctx.r.val - 1) 0 ++ [0x80]) from rfl,
        refAbsorb_append, refAbsorb_of_eq f ctx.r s _ (by simpa using hlast),
        refAbsorb_of_eq f ctx.r _ _ (by simp; omega)]
      simp [sha3FillStateBytes_zeros_byte]
    · rw [if_neg (by tauto), if_pos hlast, if_neg hpad,
        refAbsorb_of_eq f ctx.r s _ (by simpa using hlast)]
      simp only [sha3FillStateBytes_append, List.length_singleton, sha3FillStateBytes_cons,
        sha3FillStateBytes_nil, Nat.zero_add, xorByte_xorByte, show ctx.r.val - 1 = s.tail.length by omega]
  · rw [if_neg (by omega), if_neg hlast, refAbsorb_of_eq f ctx.r s _ (by simp; omega)]
    have hsplit : s.tail ++ (ctx.padding :: List.replicate (ctx.r.val - s.tail.length - 2) 0 ++ [0x80])
        = (s.tail ++ [ctx.padding]) ++ (List.replicate (ctx.r.val - s.tail.length - 2) 0 ++ [0x80]) := by
      simp
    rw [hsplit, sha3FillStateBytes_append s.lanes 0 (s.tail ++ [ctx.padding]),
      sha3FillStateBytes_zeros_byte]
    simp only [List.length_append, List.length_singleton, Nat.zero_add,
      show s.tail.length + 1 + (ctx.r.val - s.tail.length - 2) = ctx.r.val - 1 by omega]

/-! ### The offset -/

@[simp] theorem squeezePad_offset (ctx : Sha3State) : (squeezePad f ctx).offset = ctx.offset := rfl
@[simp] theorem squeezePad_r (ctx : Sha3State) : (squeezePad f ctx).r = ctx.r := rfl
@[simp] theorem squeezePad_squeezeMore (ctx : Sha3State) : (squeezePad f ctx).squeezeMore = true := rfl
@[simp] theorem squeezePad_digestsize (ctx : Sha3State) :
    (squeezePad f ctx).digestsize = ctx.digestsize := rfl

/-- Every request, of any length, advances `offset` by its length modulo the rate. -/
theorem squeezeBytes_offset (b : Bool) (ctx : Sha3State) (h : ctx.offset < ctx.r.val) :
    (squeezeBytes f b ctx).1.offset = (ctx.offset + ctx.digestsize) % ctx.r.val ∧
      (squeezeBytes f b ctx).1.r = ctx.r := by
  have hr := ctx.r.pos
  dsimp only [squeezeBytes]
  split_ifs with h₀ h₁
  · refine ⟨?_, rfl⟩
    show (ctx.offset + min ctx.digestsize (ctx.r.val - ctx.offset)) % ctx.r.val = _
    rw [Nat.min_def, if_pos (by omega)]
  · refine ⟨?_, rfl⟩
    show (ctx.offset + min ctx.digestsize (ctx.r.val - ctx.offset)) % ctx.r.val +
      (ctx.digestsize - min ctx.digestsize (ctx.r.val - ctx.offset) +
        (ctx.offset + min ctx.digestsize (ctx.r.val - ctx.offset)) % ctx.r.val) % ctx.r.val = _
    rw [Nat.min_def, if_neg (by omega), show ctx.offset + (ctx.r.val - ctx.offset) = ctx.r.val by omega,
      Nat.mod_self, Nat.zero_add, Nat.add_zero, ← Nat.add_mod_right (ctx.digestsize - _)]
    congr 1; omega
  all_goals
    refine ⟨?_, rfl⟩
    simp only [ne_eq, not_not] at h₀
    simp [h₀]

theorem squeezeCall_offset (ctx : Sha3State) (h : ctx.offset < ctx.r.val) (n : Nat) :
    (squeezeCall f ctx n).1.offset = (ctx.offset + n) % ctx.r.val ∧ (squeezeCall f ctx n).1.r = ctx.r := by
  unfold squeezeCall keccakArmAsmSqueezeInternal
  split <;> exact squeezeBytes_offset f _ _ h

/-- **Offset law.** Along any run of requests, of any lengths including `0`, `offset`
    stays below the rate and equals the total handed out modulo the rate. -/
theorem squeezeRun_offset (ctx : Sha3State) (h : ctx.offset < ctx.r.val) (ns : List Nat) :
    (squeezeRun f ctx ns).1.offset = (ctx.offset + ns.sum) % ctx.r.val ∧
      (squeezeRun f ctx ns).1.r = ctx.r := by
  induction ns generalizing ctx with
  | nil => exact ⟨(Nat.mod_eq_of_lt h).symm, rfl⟩
  | cons n ns ih =>
    obtain ⟨ho, hr⟩ := squeezeCall_offset f ctx h n
    obtain ⟨ho', hr'⟩ := ih (squeezeCall f ctx n).1 (by rw [ho, hr]; exact Nat.mod_lt _ ctx.r.pos)
    refine ⟨?_, hr'.trans hr⟩
    simp only [squeezeRun, List.sum_cons]
    rw [ho', ho, hr, Nat.mod_add_mod, Nat.add_assoc]

/-- SHAKE-256 from its initial context: requests of 1 and 200 bytes. -/
theorem squeezeRun_offset_shake256 :
    (squeezeRun id (shake256Init 0) [1, 200]).1.offset =
        ((shake256Init 0).offset + [1, 200].sum) % (shake256Init 0).r.val ∧
      (squeezeRun id (shake256Init 0) [1, 200]).1.r = (shake256Init 0).r :=
  squeezeRun_offset id _ (by decide) [1, 200]

/-! ### The stream -/

/-- The context after `p > 0` bytes of the stream from the lanes `S`: squeezing, `offset`
    is `p mod r`, and the lanes hold the block of byte `p - 1`. -/
structure Squeezing (S : KeccakState) (p : Nat) (ctx : Sha3State) : Prop where
  rate : ctx.r = r
  squeezeMore : ctx.squeezeMore = true
  offset : ctx.offset = p % r.val
  lanes : ctx.state = f^[(p - 1) / r.val] S
  pos : 0 < p

/-- A request of `n > 0` bytes with an empty current block (`offset = 0`) hands out the
    stream from the block it reads, `f^[q] S`, which has `q r` bytes before it. -/
private theorem squeezeBytes_aligned (S : KeccakState) (ctx : Sha3State) (q : Nat) (b : Bool)
    (hsm : ctx.squeezeMore = true) (hoff : ctx.offset = 0)
    (hA : (if b then f ctx.state else ctx.state) = f^[q] S) {n : Nat} (hn : 0 < n)
    (hd : ctx.digestsize = n) :
    Squeezing f ctx.r S (q * ctx.r.val + n) (squeezeBytes f b ctx).1 ∧
      (squeezeBytes f b ctx).2 = streamBytes f ctx.r S (q * ctx.r.val) n := by
  dsimp only [squeezeBytes]
  rw [if_neg (by simp [hoff]), hA, hd, keccakSqueeze_eq, hoff]
  refine ⟨⟨rfl, hsm, ?_, ?_, by omega⟩, ?_⟩
  · show 0 + (n + 0) % ctx.r.val = _
    rw [Nat.zero_add, Nat.add_zero, Nat.add_comm, Nat.add_mul_mod_self_right]
  · show f^[(n - 1) / ctx.r.val] (f^[q] S) = _
    rw [← Function.iterate_add_apply, show q * ctx.r.val + n - 1 = n - 1 + q * ctx.r.val by omega,
      Nat.add_mul_div_right _ _ ctx.r.pos]
  · show streamBytes f ctx.r (f^[q] S) 0 n = _
    rw [← streamBytes_add_mul, Nat.add_zero]

/-- A request of `n > 0` bytes inside a block (`offset = t ≠ 0`, lanes `f^[q] S`): the rest
    of the block byte-wise, then, if more is asked, the stream from the next block. -/
private theorem squeezeBytes_inside (S : KeccakState) (ctx : Sha3State) (q t : Nat) (b : Bool)
    (hsm : ctx.squeezeMore = true) (hoff : ctx.offset = t) (ht : 0 < t) (htr : t < ctx.r.val)
    (hl : ctx.state = f^[q] S) {n : Nat} (hn : 0 < n) (hd : ctx.digestsize = n) :
    Squeezing f ctx.r S (t + q * ctx.r.val + n) (squeezeBytes f b ctx).1 ∧
      (squeezeBytes f b ctx).2 = streamBytes f ctx.r S (t + q * ctx.r.val) n := by
  have hr := ctx.r.pos
  have hstart : ∀ m, streamBytes f ctx.r S (t + q * ctx.r.val) m =
      streamBytes f ctx.r (f^[q] S) t m := fun m => by
    rw [Nat.add_comm t, streamBytes_add_mul]
  dsimp only [squeezeBytes]
  rw [if_pos (by omega), hoff, hd, hl]
  by_cases hfit : n ≤ ctx.r.val - t
  · -- the request ends inside the block
    rw [Nat.min_eq_left hfit, Nat.sub_self, if_pos rfl]
    obtain ⟨hq, -⟩ := div_mod_of_lt ctx.r (t + n - 1) q (by omega)
    refine ⟨⟨rfl, hsm, ?_, ?_, by omega⟩, ?_⟩
    · show (t + n) % ctx.r.val = _
      rw [show t + q * ctx.r.val + n = t + n + q * ctx.r.val by omega, Nat.add_mul_mod_self_right]
    · show f^[q] S = _
      rw [show t + q * ctx.r.val + n - 1 = t + n - 1 + q * ctx.r.val by omega, hq]
    · rw [hstart, streamBytes_of_le f ctx.r _ t n (by omega)]
  · -- the block is finished, the rest comes from the bulk squeeze
    rw [Nat.min_eq_right (by omega), if_neg (by omega), keccakSqueeze_eq,
      show t + (ctx.r.val - t) = 0 + 1 * ctx.r.val by omega, Nat.add_mul_mod_self_right,
      Nat.zero_mod, Nat.add_zero, Nat.zero_add, ← Function.iterate_succ_apply' f q]
    have hsplit := streamBytes_add f ctx.r S (t + q * ctx.r.val) (ctx.r.val - t) (n - (ctx.r.val - t))
    rw [Nat.add_sub_cancel' (by omega)] at hsplit
    obtain ⟨hq, -⟩ := div_mod_of_lt ctx.r _ ((n - (ctx.r.val - t) - 1) / ctx.r.val + (q + 1))
      (Nat.mod_lt (n - (ctx.r.val - t) - 1) hr)
    refine ⟨⟨rfl, hsm, ?_, ?_, by omega⟩, ?_⟩
    · show (n - (ctx.r.val - t)) % ctx.r.val = _
      rw [show t + q * ctx.r.val + n = n - (ctx.r.val - t) + (q + 1) * ctx.r.val by
        rw [Nat.succ_mul]; omega, Nat.add_mul_mod_self_right]
    · show f^[(n - (ctx.r.val - t) - 1) / ctx.r.val] (f^[q + 1] S) = _
      rw [← Function.iterate_add_apply, show t + q * ctx.r.val + n - 1 =
        n - (ctx.r.val - t) - 1 + (q + 1) * ctx.r.val by rw [Nat.succ_mul]; omega,
        Nat.add_mul_div_right _ _ hr]
    · rw [hsplit, hstart, streamBytes_of_le f ctx.r (f^[q] S) t (ctx.r.val - t) (by omega),
        show t + q * ctx.r.val + (ctx.r.val - t) = (q + 1) * ctx.r.val + 0 by rw [Nat.succ_mul]; omega,
        streamBytes_add_mul]

/-- **Step lemma.** While squeezing, a request of `n > 0` bytes hands out the next `n`
    bytes of the stream. -/
theorem squeezeCall_squeezing {S : KeccakState} {p : Nat} {ctx : Sha3State}
    (h : Squeezing f r S p ctx) {n : Nat} (hn : 0 < n) :
    Squeezing f r S (p + n) (squeezeCall f ctx n).1 ∧
      (squeezeCall f ctx n).2 = streamBytes f r S p n := by
  obtain ⟨rfl, hsm, hoff, hl, hp⟩ := h
  have hr := ctx.r.pos
  have hp' : p = p % ctx.r.val + p / ctx.r.val * ctx.r.val := by
    have := Nat.mod_add_div p ctx.r.val; rw [Nat.mul_comm] at this; omega
  have hcall : squeezeCall f ctx n = squeezeBytes f true { ctx with digestsize := n } := by
    simp [squeezeCall, keccakArmAsmSqueezeInternal, hsm]
  rw [hcall]
  by_cases ht : p % ctx.r.val = 0
  · -- the current block is used up: the next one is read
    rw [ht, Nat.zero_add] at hp'
    have hq₀ : 0 < p / ctx.r.val := Nat.pos_of_ne_zero fun h0 => by rw [h0, Nat.zero_mul] at hp'; omega
    have hq : (p - 1) / ctx.r.val + 1 = p / ctx.r.val := by
      have hle := Nat.le_mul_of_pos_left ctx.r.val hq₀
      have hd := (div_mod_of_lt ctx.r (ctx.r.val - 1) (p / ctx.r.val - 1) (by omega)).1
      rw [show ctx.r.val - 1 + (p / ctx.r.val - 1) * ctx.r.val = p - 1 by
        rw [Nat.sub_one_mul]; omega] at hd
      omega
    have := squeezeBytes_aligned f S { ctx with digestsize := n } (p / ctx.r.val) true hsm
      (by simp [hoff, ht]) (by simp [hl, ← Function.iterate_succ_apply', hq]) hn rfl
    dsimp only at this
    rwa [← hp'] at this
  · -- inside the current block
    have hlt := Nat.mod_lt p hr
    have hq : (p - 1) / ctx.r.val = p / ctx.r.val := by
      have := (div_mod_of_lt ctx.r (p % ctx.r.val - 1) (p / ctx.r.val) (by omega)).1
      rwa [show p % ctx.r.val - 1 + p / ctx.r.val * ctx.r.val = p - 1 by omega] at this
    have := squeezeBytes_inside f S { ctx with digestsize := n } (p / ctx.r.val) (p % ctx.r.val) true
      hsm hoff (Nat.pos_of_ne_zero ht) (Nat.mod_lt _ hr) (by simp [hl, hq]) hn rfl
    dsimp only at this
    rwa [← hp'] at this

/-- **First request.** On a context standing for the reference state `s`, with nothing
    squeezed yet, a request of `n > 0` bytes pads and hands out the first `n` bytes of the
    stream. -/
theorem squeezeCall_first {ctx : Sha3State} {s : Absorbing r} {m : Nat}
    (h : Represents r ctx s m) (hsm : ctx.squeezeMore = false) (hoff : ctx.offset = 0) {n : Nat}
    (hn : 0 < n) :
    Squeezing f r (padLanes f r ctx.padding s) n (squeezeCall f ctx n).1 ∧
      (squeezeCall f ctx n).2 = streamBytes f r (padLanes f r ctx.padding s) 0 n := by
  obtain ⟨rfl, hl, rfl, ht⟩ := h
  have hcall : squeezeCall f ctx n = squeezeBytes f false (squeezePad f { ctx with digestsize := n }) := by
    simp [squeezeCall, keccakArmAsmSqueezeInternal, hsm]
  have hpad := squeezePad_state f { ctx with digestsize := n } s hl ht
  have := squeezeBytes_aligned f (padLanes f ctx.r ctx.padding s) (squeezePad f { ctx with digestsize := n })
    0 false rfl hoff (by simpa [padLanes] using hpad) hn rfl
  simpa [hcall] using this

/-- **Run lemma.** While squeezing, requests of positive lengths hand out consecutive
    segments of the stream. -/
theorem squeezeRun_squeezing {S : KeccakState} {p : Nat} {ctx : Sha3State}
    (h : Squeezing f r S p ctx) (ns : List Nat) (hns : ∀ n ∈ ns, 0 < n) :
    Squeezing f r S (p + ns.sum) (squeezeRun f ctx ns).1 ∧
      (squeezeRun f ctx ns).2 = streamBytes f r S p ns.sum := by
  induction ns generalizing p ctx with
  | nil => exact ⟨h, rfl⟩
  | cons n ns ih =>
    obtain ⟨h₁, ho₁⟩ := squeezeCall_squeezing f r h (hns n (List.mem_cons_self _ _))
    obtain ⟨h₂, ho₂⟩ := ih h₁ fun k hk => hns k (List.mem_cons_of_mem _ hk)
    simp only [squeezeRun, List.sum_cons, ← Nat.add_assoc]
    exact ⟨h₂, by rw [ho₁, ho₂, streamBytes_add]⟩

/-- **Squeezing concatenates.** After the absorbing phase, requests of positive lengths
    `n₁ … n_k` hand out, concatenated, the first `n₁ + … + n_k` bytes of the reference
    stream. -/
theorem squeezeRun_stream {ctx : Sha3State} {s : Absorbing r} {m : Nat}
    (h : Represents r ctx s m) (hsm : ctx.squeezeMore = false) (hoff : ctx.offset = 0)
    (ns : List Nat) (hns : ∀ n ∈ ns, 0 < n) :
    (squeezeRun f ctx ns).2 = streamBytes f r (padLanes f r ctx.padding s) 0 ns.sum := by
  cases ns with
  | nil => rfl
  | cons n ns =>
    obtain ⟨h₁, ho₁⟩ := squeezeCall_first f r h hsm hoff (hns n (List.mem_cons_self _ _))
    obtain ⟨-, ho₂⟩ := squeezeRun_squeezing f r h₁ ns fun k hk => hns k (List.mem_cons_of_mem _ hk)
    simp only [squeezeRun, List.sum_cons]
    rw [ho₁, ho₂, streamBytes_add, Nat.zero_add]

/-- **The ARMv8 sponge.**  From a context with nothing absorbed or squeezed, absorbing any
    split `cs` of a message `m` (`|m| < 2⁶⁴`) and then making requests of positive lengths
    `n₁ … n_k` hands out, concatenated, the first `n₁ + … + n_k` bytes of the reference
    sponge stream of `m`. -/
theorem absorb_squeeze_stream (ctx₀ : Sha3State) (h₀ : ctx₀.msgLen = 0)
    (hsm : ctx₀.squeezeMore = false) (hoff : ctx₀.offset = 0) (cs : List (List UInt8))
    (hlen : cs.flatten.length < 2 ^ 64) (ns : List Nat) (hns : ∀ n ∈ ns, 0 < n) :
    (squeezeRun f (cs.foldl (keccakArmAsmAbsorbInternal f) ctx₀) ns).2 =
      streamBytes f ctx₀.r (spongeLanes f ctx₀.r ctx₀.state ctx₀.padding cs.flatten) 0 ns.sum := by
  have h := keccakArmAsmAbsorbInternal_foldl f ctx₀.r
    (⟨rfl, rfl, h₀, by simp [Absorbing.init]⟩ : Represents ctx₀.r ctx₀ (Absorbing.init ctx₀.r ctx₀.state) 0)
    cs (by omega)
  obtain ⟨hsm', hoff', hpad'⟩ := foldl_keccakArmAsmAbsorbInternal_fields f ctx₀ hsm cs
  rw [squeezeRun_stream f ctx₀.r h hsm' (hoff'.trans hoff) ns hns, hpad', spongeLanes_eq_padLanes]

/-- SHAKE-256: the message `[1, 2, 3]` absorbed as `[1, 2]` and `[3]`, then 5 and 140
    bytes squeezed. -/
theorem absorb_squeeze_stream_shake256 :
    (squeezeRun id ([[1, 2], [3]].foldl (keccakArmAsmAbsorbInternal id) (shake256Init 0))
        [5, 140]).2 =
      streamBytes id (shake256Init 0).r (spongeLanes id (shake256Init 0).r (shake256Init 0).state
        (shake256Init 0).padding [[1, 2], [3]].flatten) 0 [5, 140].sum :=
  absorb_squeeze_stream id _ rfl rfl rfl _ (by decide) _ (by decide)

/-- **A first request of zero bytes skips a block.**  It pads and permutes, hands out
    nothing and leaves `offset = 0` with `squeeze_more` set, so the next request permutes
    again: it hands out bytes `r, r + 1, …` of the stream instead of `0, 1, …`. -/
theorem squeezeRun_zero_first {ctx : Sha3State} {s : Absorbing r} {m : Nat}
    (h : Represents r ctx s m) (hsm : ctx.squeezeMore = false) (hoff : ctx.offset = 0) (k : Nat) :
    (squeezeRun f ctx [0, k]).2 = streamBytes f r (padLanes f r ctx.padding s) r.val k := by
  obtain ⟨rfl, hl, rfl, ht⟩ := h
  have hpad := squeezePad_state f { ctx with digestsize := 0 } s hl ht
  have hr := ctx.r.pos
  -- the request of zero bytes: padding, no byte, `offset` stays `0`
  have h₁ : squeezeCall f ctx 0 = ({ squeezePad f { ctx with digestsize := 0 } with offset := 0 }, []) := by
    simp only [squeezeCall, keccakArmAsmSqueezeInternal, hsm]
    dsimp only [squeezeBytes]
    rw [if_neg (by simp [squeezePad, hoff]), keccakSqueeze_eq]
    simp [squeezePad, streamBytes, hoff]
  -- the next request permutes the padded lanes before squeezing
  have h₂ : (squeezeCall f { squeezePad f { ctx with digestsize := 0 } with offset := 0 } k).2 =
      streamBytes f ctx.r (f (squeezePad f { ctx with digestsize := 0 }).state) 0 k := by
    simp only [squeezeCall, keccakArmAsmSqueezeInternal, squeezePad_squeezeMore, if_true]
    dsimp only [squeezeBytes]
    rw [if_neg (by simp), keccakSqueeze_eq]
    simp
  have hshift := streamBytes_add_mul f ctx.r (padLanes f ctx.r ctx.padding s) 1 0 k
  rw [Nat.one_mul, Nat.add_zero, Function.iterate_one] at hshift
  simp only [squeezeRun, h₁, h₂, List.nil_append, List.append_nil]
  rw [hpad, hshift]
  rfl

/-- A stand-in for the permutation in the failing run: it flips bit `0` of byte `0`. -/
def flipByte0 (A : KeccakState) : KeccakState := xorByte A 0 1

/-- The failing run for SHAKE-256: after `shake_256_init` and no input, a request of `0`
    bytes followed by a request of `1` byte hands out a byte other than the first byte of
    the SHAKE-256 stream. -/
theorem squeezeRun_zero_one_shake256 :
    (squeezeRun flipByte0 (shake256Init 0) [0, 1]).2 ≠
      streamBytes flipByte0 shake256Rate (spongeLanes flipByte0 shake256Rate (fun _ => 0) 0x1f []) 0 1 := by
  have h : Represents shake256Rate (shake256Init 0) (Absorbing.init shake256Rate (fun _ => 0)) 0 :=
    ⟨rfl, rfl, rfl, rfl⟩
  rw [squeezeRun_zero_first flipByte0 shake256Rate h rfl rfl 1, spongeLanes_eq_padLanes]
  simp [streamBytes, spongeStream, byteAt, Nat.div_self shake256Rate.pos, flipByte0, xorByte,
    shake256Init]
  exact uint8_xor_ne_self _ (by decide)

end Leancrypto.Keccak
