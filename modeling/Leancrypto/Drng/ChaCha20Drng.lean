import Mathlib

namespace Leancrypto.Drng

/-!
# ChaCha20 DRNG — keystream requests, the key update and seeding

`chacha20_drng.c` keeps a ChaCha20 state.  A request (`lc_cc20_drng_generate`) writes
`outbuflen` bytes of keystream, one `cc20_block` call per full or partial 64-byte block,
and ends with `lc_cc20_drng_update`, which XORs eight words into the key (words of the
last block beyond the bytes released, or of one more block) and advances the 96-bit nonce
`counter[1..3]`.  Seeding XORs the seed into the key 32 bytes at a time, each chunk
followed by an update.

* `cc20Block`, `lcCc20DrngUpdate`, `lcCc20DrngSeed`, `lcCc20DrngGenerate` — the
  functions, over the ChaCha20 block function `chacha`; `cc20_block` advances the 32-bit
  block counter `counter[0]` modulo `2 ^ 32`.  A request also returns the states
  `cc20_block` was called with;
* `lcCc20DrngGenerate_spec` — one request, for every state and every length: the calls
  are the states at counters `c, c + 1, …`, the output is the keystream from `c`, and the
  key is XORed with eight words of the last output block past the released bytes or of
  the update's own block;
* `lcCc20DrngGenerate_calls_nodup`, `lcCc20DrngGenerate_key_unreleased` — as long as a
  request makes at most `2 ^ 32` calls, no two calls share their input and the key update
  reuses no released keystream;
* `lcCc20DrngGenerate_calls_repeat`, `lcCc20DrngGenerate_key_reuses` — a request of
  `2 ^ 38` bytes (a `size_t` length) makes `2 ^ 32 + 1` calls: the last one repeats the
  first, and the key is XORed with the first 32 bytes of the output;
* `cc20Step`, `cc20Run_nonce_nodup` — a run of seed chunks and requests: every update adds
  one to the 96-bit nonce `counter[1..3]` modulo `2 ^ 96`, so fewer than `2 ^ 96` steps
  never repeat it.
-/

/-- The part of ChaCha20's `struct lc_sym_state` the DRNG changes: the key words `key.u`
    and the counter words (`counter[0]` the block counter, `counter[1..3]` the nonce).
    The constants never change and are left out. -/
structure Cc20State where
  key : Fin 8 → UInt32
  counter : Fin 4 → UInt32

/-- The 64 bytes of a block of sixteen `uint32_t` words, as a little-endian host stores
    them. -/
def blockBytes (b : Fin 16 → UInt32) : List UInt8 :=
  (List.finRange 16).flatMap fun j =>
    [(b j).toUInt8, (b j >>> 8).toUInt8, (b j >>> 16).toUInt8, (b j >>> 24).toUInt8]

@[simp] theorem length_blockBytes (b : Fin 16 → UInt32) : (blockBytes b).length = 64 := by
  simp [blockBytes, List.length_flatMap, Function.comp_def]

/-- The `uint32_t` whose little-endian bytes are `bs[4w .. 4w + 3]`, zero past the end. -/
def leWord (bs : List UInt8) (w : Nat) : UInt32 :=
  (bs.getD (4 * w) 0).toUInt32 ||| (bs.getD (4 * w + 1) 0).toUInt32 <<< 8 |||
    (bs.getD (4 * w + 2) 0).toUInt32 <<< 16 ||| (bs.getD (4 * w + 3) 0).toUInt32 <<< 24

variable (chacha : Cc20State → Fin 16 → UInt32)

/-! ### `cc20_block` and the update -/

/-- `cc20_block`: the block of the state, and the state with `counter[0]` advanced by one
    modulo `2 ^ 32`.  Modelled from the spec: the function is not in the sources, and the
    ChaCha20 block function of the fixed constants is the parameter `chacha`. -/
def cc20Block (s : Cc20State) : (Fin 16 → UInt32) × Cc20State :=
  (chacha s, { s with counter := Function.update s.counter 0 (s.counter 0 + 1) })

/-- The nonce increment of `lc_cc20_drng_update`: `counter[1]++`, carrying into
    `counter[2]` and from there into `counter[3]`; `counter[0]` is left alone. -/
def incNonce (c : Fin 4 → UInt32) : Fin 4 → UInt32 :=
  let c1 := c 1 + 1
  let c2 := if c1 = 0 then c 2 + 1 else c 2
  let c3 := if c1 = 0 ∧ c2 = 0 then c 3 + 1 else c 3
  ![c 0, c1, c2, c3]

/-- `lc_cc20_drng_update`: XOR eight words into the key — those of a new block when
    `used_words > LC_CC20_KEY_SIZE_WORDS`, else `buf[used_words ..]` — and advance the
    nonce; also the states `cc20_block` was called with.  `le_bswap32` is the identity on
    the little-endian hosts modelled here; the `else` branch gives the index bound. -/
def lcCc20DrngUpdate (s : Cc20State) (buf : Fin 16 → UInt32) (usedWords : Nat) :
    Cc20State × List Cc20State :=
  if h : 8 < usedWords then
    (⟨fun i => s.key i ^^^ (cc20Block chacha s).1 (Fin.castLE (by decide) i),
      incNonce (cc20Block chacha s).2.counter⟩, [s])
  else
    (⟨fun i => s.key i ^^^ buf ⟨i + usedWords, by omega⟩, incNonce s.counter⟩, [])

/-! ### Seeding -/

/-- `key.b[i] ^= chunk[i]` for the bytes of a chunk: the key words are the little-endian
    words of `key.b`. -/
def xorKeyBytes (key : Fin 8 → UInt32) (chunk : List UInt8) : Fin 8 → UInt32 :=
  fun w => key w ^^^ leWord chunk w

/-- `lc_cc20_drng_seed`: while input is left, XOR the next chunk of at most
    `LC_CC20_KEY_SIZE` bytes into the key and update with a new block (`buf` is `NULL`,
    which that branch never reads); also the states `cc20_block` was called with. -/
def lcCc20DrngSeed (s : Cc20State) (inbuf : List UInt8) : Cc20State × List Cc20State :=
  if _ : inbuf = [] then (s, [])
  else
    let u := lcCc20DrngUpdate chacha { s with key := xorKeyBytes s.key (inbuf.take 32) }
      (fun _ => 0) 16
    let r := lcCc20DrngSeed u.1 (inbuf.drop 32)
    (r.1, u.2 ++ r.2)
termination_by inbuf.length
decreasing_by simp only [List.length_drop]; have := List.length_pos.2 ‹_›; omega

/-- Seeding calls `cc20_block` once per chunk of at most `LC_CC20_KEY_SIZE` bytes, each
    time on the state with that chunk just XORed into the key, and writes no output. -/
theorem length_lcCc20DrngSeed (s : Cc20State) (inbuf : List UInt8) :
    (lcCc20DrngSeed chacha s inbuf).2.length = (inbuf.length + 31) / 32 := by
  induction s, inbuf using lcCc20DrngSeed.induct chacha with
  | case1 s => simp [lcCc20DrngSeed]
  | case2 s inbuf h _ ih =>
    have := List.length_pos.2 h
    rw [lcCc20DrngSeed, dif_neg h]
    simp only [List.length_append, ih, List.length_drop]
    simp only [lcCc20DrngUpdate, dif_pos (show 8 < 16 by decide), List.length_singleton]
    omega

/-! ### Generating -/

/-- The state of `lc_cc20_drng_generate` as it runs: the ChaCha20 state, `aligned_buf`,
    the bytes written to `outbuf` and the states `cc20_block` was called with. -/
structure Cc20Gen where
  state : Cc20State
  alignedBuf : Fin 16 → UInt32
  out : List UInt8
  calls : List Cc20State

/-- The `while (outbuflen >= LC_CC20_BLOCK_SIZE)` loop over `k` full blocks; a block goes
    through `aligned_buf` when `outbuf` is not 4-byte aligned. -/
def generateBlocks (aligned : Bool) : Nat → Cc20State → (Fin 16 → UInt32) → Cc20Gen
  | 0, s, buf => ⟨s, buf, [], []⟩
  | k + 1, s, buf =>
    let g := generateBlocks aligned k (cc20Block chacha s).2
      (if aligned then buf else (cc20Block chacha s).1)
    ⟨g.state, g.alignedBuf, blockBytes (cc20Block chacha s).1 ++ g.out, s :: g.calls⟩

/-- `lc_cc20_drng_generate`: the full blocks, then a partial block through `aligned_buf`
    with `used` its number of words (rounded up), then the update. -/
def lcCc20DrngGenerate (aligned : Bool) (buf : Fin 16 → UInt32) (s : Cc20State)
    (outbuflen : Nat) : Cc20Gen :=
  let g := generateBlocks chacha aligned (outbuflen / 64) s buf
  if outbuflen % 64 ≠ 0 then
    let u := lcCc20DrngUpdate chacha (cc20Block chacha g.state).2 (cc20Block chacha g.state).1
      ((outbuflen % 64 + 3) / 4)
    ⟨u.1, (cc20Block chacha g.state).1,
      g.out ++ (blockBytes (cc20Block chacha g.state).1).take (outbuflen % 64),
      g.calls ++ g.state :: u.2⟩
  else
    let u := lcCc20DrngUpdate chacha g.state g.alignedBuf 16
    ⟨u.1, g.alignedBuf, g.out, g.calls ++ u.2⟩

/-! ### Counters -/

/-- The state after `j` calls of `cc20_block` from `s`: `counter[0]` advanced by `j`
    modulo `2 ^ 32`. -/
def advance (s : Cc20State) (j : Nat) : Cc20State :=
  { s with counter := Function.update s.counter 0 (s.counter 0 + UInt32.ofNat j) }

@[simp] theorem advance_zero (s : Cc20State) : advance s 0 = s := by
  simp [advance, show UInt32.ofNat 0 = 0 from rfl]

@[simp] theorem key_advance (s : Cc20State) (j : Nat) : (advance s j).key = s.key := rfl

theorem uint32_ofNat_add (j k : Nat) : UInt32.ofNat j + UInt32.ofNat k = UInt32.ofNat (j + k) :=
  UInt32.eq_of_toBitVec_eq (BitVec.ofNat_add j k).symm

theorem cc20Block_advance (s : Cc20State) (j : Nat) :
    cc20Block chacha (advance s j) = (chacha (advance s j), advance s (j + 1)) := by
  simp only [cc20Block, advance, Function.update_same, Function.update_idem, add_assoc]
  rw [show (1 : UInt32) = UInt32.ofNat 1 from rfl, uint32_ofNat_add]

theorem advance_two_pow (s : Cc20State) : advance s (2 ^ 32) = s := by
  simp [advance, show UInt32.ofNat (2 ^ 32) = 0 from rfl]

/-- Fewer than `2 ^ 32` calls apart, two states differ. -/
theorem advance_injective (s : Cc20State) {j k : Nat} (hj : j < 2 ^ 32) (hk : k < 2 ^ 32)
    (h : advance s j = advance s k) : j = k := by
  have hc : s.counter 0 + UInt32.ofNat j = s.counter 0 + UInt32.ofNat k := by
    simpa [advance] using congrArg (fun t : Cc20State => t.counter 0) h
  have hmod : j % 2 ^ 32 = k % 2 ^ 32 := congrArg UInt32.toNat (add_left_cancel hc)
  rwa [Nat.mod_eq_of_lt hj, Nat.mod_eq_of_lt hk] at hmod

/-- The keystream of `n` blocks from `s`. -/
def keystream (s : Cc20State) (n : Nat) : List UInt8 :=
  (List.range n).flatMap fun j => blockBytes (chacha (advance s j))

@[simp] theorem length_keystream (s : Cc20State) (n : Nat) :
    (keystream chacha s n).length = 64 * n := by
  simp [keystream, List.length_flatMap, Function.comp_def, List.sum_replicate, Nat.mul_comm]

theorem keystream_succ (s : Cc20State) (n : Nat) :
    keystream chacha s (n + 1) = keystream chacha s n ++ blockBytes (chacha (advance s n)) := by
  simp [keystream, List.range_succ, List.flatMap_append]

/-! ### One request -/

variable (aligned : Bool)

theorem generateBlocks_advance (s : Cc20State) (k j : Nat) (buf : Fin 16 → UInt32) :
    (generateBlocks chacha aligned k (advance s j) buf).state = advance s (j + k) ∧
    (generateBlocks chacha aligned k (advance s j) buf).out =
      (List.range k).flatMap (fun i => blockBytes (chacha (advance s (j + i)))) ∧
    (generateBlocks chacha aligned k (advance s j) buf).calls =
      (List.range k).map (fun i => advance s (j + i)) := by
  induction k generalizing j buf with
  | zero => simp [generateBlocks]
  | succ k ih =>
    obtain ⟨h1, h2, h3⟩ := ih (j + 1) (if aligned then buf else chacha (advance s j))
    simp only [generateBlocks, cc20Block_advance, h1, h2, h3, List.range_succ_eq_map,
      List.flatMap_cons, List.map_cons, List.flatMap_map, List.map_map, Nat.add_zero]
    refine ⟨by rw [Nat.add_right_comm, Nat.add_assoc], ?_, ?_⟩ <;>
      simp only [Function.comp_def, Nat.add_right_comm, Nat.add_assoc]

/-- The number of blocks a request of `outbuflen` bytes writes. -/
def outBlocks (outbuflen : Nat) : Nat := (outbuflen + 63) / 64

/-- `used` when `lc_cc20_drng_generate` calls the update: the words of the partial block,
    rounded up, or `LC_CC20_BLOCK_SIZE_WORDS` when there is none. -/
def usedWords (outbuflen : Nat) : Nat :=
  if outbuflen % 64 ≠ 0 then (outbuflen % 64 + 3) / 4 else 16

/-- The number of `cc20_block` calls of a request: one per block written, and one more
    when the update needs a new block. -/
def blockCalls (outbuflen : Nat) : Nat :=
  outBlocks outbuflen + if 8 < usedWords outbuflen then 1 else 0

variable (buf : Fin 16 → UInt32) (s : Cc20State) (outbuflen : Nat)

theorem usedWords_of_mod_eq {outbuflen : Nat} (hr : outbuflen % 64 = 0) :
    usedWords outbuflen = 16 :=
  if_neg (not_not.2 hr)

theorem usedWords_of_mod_ne {outbuflen : Nat} (hr : outbuflen % 64 ≠ 0) :
    usedWords outbuflen = (outbuflen % 64 + 3) / 4 :=
  if_pos hr

theorem generateBlocks_from (k : Nat) :
    (generateBlocks chacha aligned k s buf).state = advance s k ∧
    (generateBlocks chacha aligned k s buf).out = keystream chacha s k ∧
    (generateBlocks chacha aligned k s buf).calls = (List.range k).map (advance s) := by
  simpa [keystream] using generateBlocks_advance chacha aligned s k 0 buf

theorem blockCalls_of_mod_eq {outbuflen : Nat} (hr : outbuflen % 64 = 0) :
    blockCalls outbuflen = outbuflen / 64 + 1 := by
  rw [blockCalls, usedWords_of_mod_eq hr, if_pos (by decide), outBlocks]; omega

theorem blockCalls_of_used_gt {outbuflen : Nat} (hr : outbuflen % 64 ≠ 0)
    (hu : 8 < (outbuflen % 64 + 3) / 4) : blockCalls outbuflen = outbuflen / 64 + 2 := by
  rw [blockCalls, usedWords_of_mod_ne hr, if_pos hu, outBlocks]; omega

theorem blockCalls_of_used_le {outbuflen : Nat} (hr : outbuflen % 64 ≠ 0)
    (hu : ¬8 < (outbuflen % 64 + 3) / 4) : blockCalls outbuflen = outbuflen / 64 + 1 := by
  rw [blockCalls, usedWords_of_mod_ne hr, if_neg hu, outBlocks]; omega

/-- The calls of a request are the states at the next `blockCalls outbuflen` counters,
    and the request leaves the block counter after them. -/
theorem lcCc20DrngGenerate_calls_counter :
    (lcCc20DrngGenerate chacha aligned buf s outbuflen).calls =
      (List.range (blockCalls outbuflen)).map (advance s) ∧
    (lcCc20DrngGenerate chacha aligned buf s outbuflen).state.counter =
      incNonce (advance s (blockCalls outbuflen)).counter := by
  obtain ⟨h1, -, h3⟩ := generateBlocks_from chacha aligned buf s (outbuflen / 64)
  by_cases hr : outbuflen % 64 = 0
  · simp [lcCc20DrngGenerate, hr, h1, h3, blockCalls_of_mod_eq hr, lcCc20DrngUpdate,
      cc20Block_advance, List.range_succ]
  · by_cases hu : 8 < (outbuflen % 64 + 3) / 4
    · simp [lcCc20DrngGenerate, hr, hu, h1, h3, blockCalls_of_used_gt hr hu, lcCc20DrngUpdate,
        cc20Block_advance, List.range_succ]
    · simp [lcCc20DrngGenerate, hr, hu, h1, h3, blockCalls_of_used_le hr hu, lcCc20DrngUpdate,
        cc20Block_advance, List.range_succ]

/-- A request writes the first `outbuflen` bytes of the keystream from its state. -/
theorem lcCc20DrngGenerate_out :
    (lcCc20DrngGenerate chacha aligned buf s outbuflen).out =
      (keystream chacha s (outBlocks outbuflen)).take outbuflen := by
  obtain ⟨h1, h2, -⟩ := generateBlocks_from chacha aligned buf s (outbuflen / 64)
  have hk := length_keystream chacha s (outbuflen / 64)
  by_cases hr : outbuflen % 64 = 0
  · have hn : outBlocks outbuflen = outbuflen / 64 := by rw [outBlocks]; omega
    rw [hn, List.take_of_length_le (by omega)]
    simp [lcCc20DrngGenerate, hr, h2]
  · have hn : outBlocks outbuflen = outbuflen / 64 + 1 := by rw [outBlocks]; omega
    rw [hn, keystream_succ, List.take_append_eq_append_take, List.take_of_length_le (by omega),
      hk, show outbuflen - 64 * (outbuflen / 64) = outbuflen % 64 by omega]
    simp [lcCc20DrngGenerate, hr, h1, h2, cc20Block_advance]

/-- The key a request leaves: the old key XORed with words `w .. w + 7` of the block at
    counter offset `m`, which is either the update's own block, after every block written,
    or the last block written, with the words past the `outbuflen mod 64` bytes it
    released. -/
theorem lcCc20DrngGenerate_key :
    ∃ m w, ∃ hw : w ≤ 8,
      (∀ i : Fin 8, (lcCc20DrngGenerate chacha aligned buf s outbuflen).state.key i =
        s.key i ^^^ chacha (advance s m) ⟨w + i, by have := i.2; omega⟩) ∧
      ((8 < usedWords outbuflen ∧ m = outBlocks outbuflen ∧ w = 0) ∨
        (usedWords outbuflen ≤ 8 ∧ m + 1 = outBlocks outbuflen ∧ w = usedWords outbuflen ∧
          outbuflen % 64 ≤ 4 * w)) := by
  obtain ⟨h1, -, -⟩ := generateBlocks_from chacha aligned buf s (outbuflen / 64)
  have castLE_eq : ∀ i : Fin 8, Fin.castLE (by decide : 8 ≤ 16) i = ⟨0 + i, by omega⟩ :=
    fun i => Fin.ext (by simp)
  by_cases hr : outbuflen % 64 = 0
  · refine ⟨outbuflen / 64, 0, by omega, fun i => ?_, .inl ⟨?_, ?_, rfl⟩⟩
    · simp [lcCc20DrngGenerate, hr, h1, lcCc20DrngUpdate, cc20Block, castLE_eq]
    · rw [usedWords_of_mod_eq hr]; omega
    · rw [outBlocks]; omega
  · rw [usedWords_of_mod_ne hr]
    by_cases hu : 8 < (outbuflen % 64 + 3) / 4
    · refine ⟨outbuflen / 64 + 1, 0, by omega, fun i => ?_, .inl ⟨hu, by rw [outBlocks]; omega, rfl⟩⟩
      simp [lcCc20DrngGenerate, hr, hu, h1, lcCc20DrngUpdate, cc20Block_advance, castLE_eq]
    · refine ⟨outbuflen / 64, (outbuflen % 64 + 3) / 4, by omega, fun i => ?_,
        .inr ⟨by omega, by rw [outBlocks]; omega, rfl, by omega⟩⟩
      simp only [lcCc20DrngGenerate, hr, hu, h1, lcCc20DrngUpdate, cc20Block_advance, ne_eq,
        not_false_eq_true, if_true, dif_neg, key_advance]
      exact congrArg _ (congrArg _ (Fin.ext (Nat.add_comm _ _)))

/-- **One request.**  For every state and every length, the block-function inputs of
    `lc_cc20_drng_generate` are the states at the next `blockCalls outbuflen` values of
    `counter[0]`, the bytes written are the keystream from the state, the block counter
    ends past the calls with the nonce advanced, and the key is XORed with eight words
    of a block: the update's own, or the last one written past its released bytes. -/
theorem lcCc20DrngGenerate_spec :
    (lcCc20DrngGenerate chacha aligned buf s outbuflen).calls =
      (List.range (blockCalls outbuflen)).map (advance s) ∧
    (lcCc20DrngGenerate chacha aligned buf s outbuflen).out =
      (keystream chacha s (outBlocks outbuflen)).take outbuflen ∧
    (lcCc20DrngGenerate chacha aligned buf s outbuflen).state.counter =
      incNonce (advance s (blockCalls outbuflen)).counter ∧
    ∃ m w, ∃ hw : w ≤ 8,
      (∀ i : Fin 8, (lcCc20DrngGenerate chacha aligned buf s outbuflen).state.key i =
        s.key i ^^^ chacha (advance s m) ⟨w + i, by have := i.2; omega⟩) ∧
      ((8 < usedWords outbuflen ∧ m = outBlocks outbuflen ∧ w = 0) ∨
        (usedWords outbuflen ≤ 8 ∧ m + 1 = outBlocks outbuflen ∧ w = usedWords outbuflen ∧
          outbuflen % 64 ≤ 4 * w)) :=
  ⟨(lcCc20DrngGenerate_calls_counter chacha aligned buf s outbuflen).1,
    lcCc20DrngGenerate_out chacha aligned buf s outbuflen,
    (lcCc20DrngGenerate_calls_counter chacha aligned buf s outbuflen).2,
    lcCc20DrngGenerate_key chacha aligned buf s outbuflen⟩

/-- **Distinct block inputs, exactly up to `2 ^ 32` calls.**  The calls of one request
    receive pairwise distinct states iff the request makes at most `2 ^ 32` of them. -/
theorem lcCc20DrngGenerate_calls_nodup :
    (lcCc20DrngGenerate chacha aligned buf s outbuflen).calls.Nodup ↔
      blockCalls outbuflen ≤ 2 ^ 32 := by
  rw [(lcCc20DrngGenerate_calls_counter chacha aligned buf s outbuflen).1]
  constructor
  · intro h
    by_contra hlt
    have := List.inj_on_of_nodup_map h (x := 0) (y := 2 ^ 32)
      (List.mem_range.2 (by omega)) (List.mem_range.2 (by omega))
      (by rw [advance_zero, advance_two_pow])
    omega
  · intro h
    exact (List.nodup_range _).map_on fun x hx y hy hxy =>
      advance_injective s (by simp at hx; omega) (by simp at hy; omega) hxy

/-- **The key update reuses no released keystream, up to `2 ^ 32` calls.**  When a
    request makes at most `2 ^ 32` calls, the eight words XORed into the key are words
    `w .. w + 7` of the block at some counter offset `m`, and every block written with
    that same input released fewer than `4 * w` bytes. -/
theorem lcCc20DrngGenerate_key_unreleased (h : blockCalls outbuflen ≤ 2 ^ 32) :
    ∃ m w, ∃ hw : w ≤ 8,
      (∀ i : Fin 8, (lcCc20DrngGenerate chacha aligned buf s outbuflen).state.key i =
        s.key i ^^^ chacha (advance s m) ⟨w + i, by have := i.2; omega⟩) ∧
      ∀ j < outBlocks outbuflen, advance s j = advance s m →
        min 64 (outbuflen - 64 * j) ≤ 4 * w := by
  obtain ⟨m, w, hw, hkey, hcase⟩ := lcCc20DrngGenerate_key chacha aligned buf s outbuflen
  refine ⟨m, w, hw, hkey, fun j hj hjm => ?_⟩
  have hcalls : outBlocks outbuflen + (if 8 < usedWords outbuflen then 1 else 0) ≤ 2 ^ 32 := h
  rcases hcase with ⟨hu, rfl, rfl⟩ | ⟨hu, hm, rfl, hr⟩
  · rw [if_pos hu] at hcalls
    have := advance_injective s (by omega) (by omega) hjm
    omega
  · have := advance_injective s (by omega) (by omega) hjm
    have hr0 : outbuflen % 64 ≠ 0 := fun h0 => by rw [usedWords_of_mod_eq h0] at hu; omega
    simp only [outBlocks] at hm
    omega

theorem blockCalls_two_pow_38 : blockCalls (2 ^ 38) = 2 ^ 32 + 1 := by decide

theorem take_keystream (n : Nat) (hn : 0 < n) :
    (keystream chacha s n).take 64 = blockBytes (chacha s) := by
  obtain ⟨k, rfl⟩ : ∃ k, n = k + 1 := ⟨n - 1, by omega⟩
  rw [keystream, List.range_succ_eq_map, List.flatMap_cons, advance_zero,
    List.take_left' (length_blockBytes _)]

/-- **A `size_t` request repeats a block input.**  A request of `2 ^ 38` bytes makes
    `2 ^ 32 + 1` calls of `cc20_block`, and the last receives the same state as the
    first: `counter[0]` wraps within the request. -/
theorem lcCc20DrngGenerate_calls_repeat :
    blockCalls (2 ^ 38) = 2 ^ 32 + 1 ∧
    (lcCc20DrngGenerate chacha aligned buf s (2 ^ 38)).calls[0]? = some s ∧
    (lcCc20DrngGenerate chacha aligned buf s (2 ^ 38)).calls[2 ^ 32]? = some s := by
  rw [(lcCc20DrngGenerate_calls_counter chacha aligned buf s _).1, blockCalls_two_pow_38]
  exact ⟨rfl, by simp, by simpa using advance_two_pow s⟩

/-- **A `size_t` request feeds released keystream back into the key.**  After a request
    of `2 ^ 38` bytes, the key is XORed with words 0..7 of the first block written, whose
    64 bytes open the output. -/
theorem lcCc20DrngGenerate_key_reuses :
    (lcCc20DrngGenerate chacha aligned buf s (2 ^ 38)).out.take 64 = blockBytes (chacha s) ∧
    ∀ i : Fin 8, (lcCc20DrngGenerate chacha aligned buf s (2 ^ 38)).state.key i =
      s.key i ^^^ chacha s (Fin.castLE (by decide) i) := by
  have hb : outBlocks (2 ^ 38) = 2 ^ 32 := by decide
  have hu : usedWords (2 ^ 38) = 16 := by decide
  refine ⟨?_, fun i => ?_⟩
  · rw [lcCc20DrngGenerate_out, hb, List.take_take, show min 64 (2 ^ 38) = 64 from rfl,
      take_keystream chacha s _ (by decide)]
  · obtain ⟨m, w, hw, hkey, hcase⟩ := lcCc20DrngGenerate_key chacha aligned buf s (2 ^ 38)
    rw [hu, hb] at hcase
    rcases hcase with ⟨-, rfl, rfl⟩ | ⟨h, -⟩
    · rw [hkey, advance_two_pow]
      exact congrArg _ (congrArg _ (Fin.ext (by simp)))
    · omega

theorem lcCc20DrngGenerate_key_unreleased_100 :
    blockCalls 100 ≤ 2 ^ 32 ∧
    ∃ m w, ∃ hw : w ≤ 8,
      (∀ i : Fin 8, (lcCc20DrngGenerate (fun _ j => j.val.toUInt32) true (fun _ => 0)
          ⟨fun _ => 0, fun _ => 0⟩ 100).state.key i =
        (0 : UInt32) ^^^ (fun (_ : Cc20State) (j : Fin 16) => j.val.toUInt32)
          (advance ⟨fun _ => 0, fun _ => 0⟩ m) ⟨w + i, by have := i.2; omega⟩) ∧
      ∀ j < outBlocks 100, advance ⟨fun _ => 0, fun _ => 0⟩ j = advance ⟨fun _ => 0, fun _ => 0⟩ m →
        min 64 (100 - 64 * j) ≤ 4 * w :=
  ⟨by decide, lcCc20DrngGenerate_key_unreleased _ true (fun _ => 0) ⟨fun _ => 0, fun _ => 0⟩ 100
    (by decide)⟩

/-! ### The nonce -/

/-- The 96-bit nonce `counter[1] + 2^32 counter[2] + 2^64 counter[3]`, little-endian. -/
def nonceVal (c : Fin 4 → UInt32) : Nat :=
  (c 1).toNat + 2 ^ 32 * (c 2).toNat + 2 ^ 64 * (c 3).toNat

/-- The nonce words `counter[1..3]` of a state. -/
def nonceWords (t : Cc20State) : UInt32 × UInt32 × UInt32 :=
  (t.counter 1, t.counter 2, t.counter 3)

/-- One step of a run: a chunk of the seeding loop (its XOR into the key and the update
    that follows it), or a whole `lc_cc20_drng_generate` request. -/
inductive Cc20Event
  | seedChunk (chunk : List UInt8)
  | generate (aligned : Bool) (buf : Fin 16 → UInt32) (outbuflen : Nat)

/-- The state after one event. -/
def cc20Step (t : Cc20State) : Cc20Event → Cc20State
  | .seedChunk chunk =>
    (lcCc20DrngUpdate chacha { t with key := xorKeyBytes t.key chunk } (fun _ => 0) 16).1
  | .generate aligned buf outbuflen => (lcCc20DrngGenerate chacha aligned buf t outbuflen).state

/-- The chunks of the seeding loop as events: `LC_CC20_KEY_SIZE` bytes at a time. -/
def seedEvents (inbuf : List UInt8) : List Cc20Event :=
  (List.range ((inbuf.length + 31) / 32)).map fun i => .seedChunk ((inbuf.drop (32 * i)).take 32)

/-- Seeding is the run of its chunk events. -/
theorem lcCc20DrngSeed_eq_foldl (t : Cc20State) (inbuf : List UInt8) :
    (lcCc20DrngSeed chacha t inbuf).1 = (seedEvents inbuf).foldl (cc20Step chacha) t := by
  induction t, inbuf using lcCc20DrngSeed.induct chacha with
  | case1 t => simp [lcCc20DrngSeed, seedEvents]
  | case2 t inbuf h _ ih =>
    have hl := List.length_pos.2 h
    rw [lcCc20DrngSeed, dif_neg h]
    simp only [ih, seedEvents, List.length_drop]
    rw [show (inbuf.length + 31) / 32 = (inbuf.length - 32 + 31) / 32 + 1 by omega,
      List.range_succ_eq_map, List.map_cons, List.foldl_cons, List.map_map]
    simp only [cc20Step, Nat.mul_zero, List.drop_zero, Function.comp_def, Nat.mul_succ,
      List.drop_drop, Nat.add_comm]

theorem uint32_toNat_one : (1 : UInt32).toNat = 1 := rfl

/-- **The nonce step** adds one to the 96-bit nonce modulo `2 ^ 96`, carrying from
    `counter[1]` into `counter[2]` and `counter[3]`, and leaves `counter[0]` alone. -/
theorem nonceVal_incNonce (c : Fin 4 → UInt32) :
    nonceVal (incNonce c) = (nonceVal c + 1) % 2 ^ 96 ∧ incNonce c 0 = c 0 := by
  have h1 := (c 1).toNat_lt; have h2 := (c 2).toNat_lt; have h3 := (c 3).toNat_lt
  refine ⟨?_, rfl⟩
  simp only [incNonce, nonceVal, UInt32.ext_iff, UInt32.toNat_add, UInt32.toNat_zero,
    uint32_toNat_one, UInt32.size, Matrix.cons_val_one, Matrix.head_cons, Matrix.cons_val_two,
    Matrix.tail_cons, Matrix.cons_val_three]
  -- the three carry cases
  split_ifs <;> simp only [UInt32.toNat_add, uint32_toNat_one, UInt32.size] at * <;> omega

@[simp] theorem nonceVal_update_zero (c : Fin 4 → UInt32) (x : UInt32) :
    nonceVal (Function.update c 0 x) = nonceVal c := by
  simp [nonceVal]

@[simp] theorem nonceVal_advance (t : Cc20State) (j : Nat) :
    nonceVal (advance t j).counter = nonceVal t.counter :=
  nonceVal_update_zero _ _

/-- The update advances the nonce by one; `counter[0]` moves only with the `cc20_block`
    call of its first branch. -/
theorem lcCc20DrngUpdate_counter (t : Cc20State) (buf : Fin 16 → UInt32) (usedWords : Nat) :
    nonceVal (lcCc20DrngUpdate chacha t buf usedWords).1.counter = (nonceVal t.counter + 1) % 2 ^ 96 ∧
      (lcCc20DrngUpdate chacha t buf usedWords).1.counter 0 =
        if 8 < usedWords then t.counter 0 + 1 else t.counter 0 := by
  unfold lcCc20DrngUpdate
  split_ifs
  · simp [cc20Block, (nonceVal_incNonce _).1, (nonceVal_incNonce _).2]
  · exact nonceVal_incNonce _

/-- Step lemma: every event advances the nonce by one. -/
theorem nonceVal_cc20Step (t : Cc20State) (e : Cc20Event) :
    nonceVal (cc20Step chacha t e).counter = (nonceVal t.counter + 1) % 2 ^ 96 := by
  cases e with
  | seedChunk chunk => exact (lcCc20DrngUpdate_counter chacha _ _ 16).1
  | generate aligned buf outbuflen =>
    rw [cc20Step, (lcCc20DrngGenerate_calls_counter chacha aligned buf t outbuflen).2,
      (nonceVal_incNonce _).1, nonceVal_advance]

theorem nonceVal_lt (c : Fin 4 → UInt32) : nonceVal c < 2 ^ 96 := by
  have h1 := (c 1).toNat_lt; have h2 := (c 2).toNat_lt; have h3 := (c 3).toNat_lt
  unfold nonceVal; omega

/-- Run lemma: after `i` events the nonce has advanced by `i` modulo `2 ^ 96`. -/
theorem nonceVal_scanl (t : Cc20State) (events : List Cc20Event) :
    (List.scanl (cc20Step chacha) t events).map (fun u => nonceVal u.counter) =
      (List.range (events.length + 1)).map fun i => (nonceVal t.counter + i) % 2 ^ 96 := by
  induction events generalizing t with
  | nil =>
    simp only [List.scanl_nil, List.length_nil, Nat.zero_add, show List.range 1 = [0] from rfl,
      List.map_cons, List.map_nil, Nat.add_zero, Nat.mod_eq_of_lt (nonceVal_lt _)]
  | cons e events ih =>
    rw [List.scanl_cons, List.map_append, ih, nonceVal_cc20Step, List.length_cons,
      List.range_succ_eq_map (events.length + 1)]
    simp only [List.map_cons, List.map_nil, List.map_map, Function.comp_def, Nat.mod_add_mod,
      Nat.add_zero, Nat.mod_eq_of_lt (nonceVal_lt _), List.singleton_append, Nat.succ_eq_add_one,
      Nat.add_assoc, Nat.add_comm 1]

/-- **The nonce never repeats within `2 ^ 96` steps.**  The update adds one to the 96-bit
    nonce `counter[1] + 2^32 counter[2] + 2^64 counter[3]` modulo `2 ^ 96`, and
    `counter[0]` changes only with its `cc20_block` call.  So along any run of seed chunks
    and generate requests the nonce after `i` steps is the first one plus `i` modulo
    `2 ^ 96`, and over fewer than `2 ^ 96` steps no two states share their nonce words. -/
theorem cc20Run_nonce_nodup (t : Cc20State) (events : List Cc20Event)
    (hlen : events.length < 2 ^ 96) :
    (∀ u buf usedWords,
      nonceVal (lcCc20DrngUpdate chacha u buf usedWords).1.counter =
          (nonceVal u.counter + 1) % 2 ^ 96 ∧
        (lcCc20DrngUpdate chacha u buf usedWords).1.counter 0 =
          if 8 < usedWords then u.counter 0 + 1 else u.counter 0) ∧
    (List.scanl (cc20Step chacha) t events).map (fun u => nonceVal u.counter) =
      (List.range (events.length + 1)).map (fun i => (nonceVal t.counter + i) % 2 ^ 96) ∧
    ((List.scanl (cc20Step chacha) t events).map nonceWords).Nodup := by
  have hrun := nonceVal_scanl chacha t events
  refine ⟨lcCc20DrngUpdate_counter chacha, hrun, ?_⟩
  have hnd : ((List.scanl (cc20Step chacha) t events).map fun u => nonceVal u.counter).Nodup := by
    rw [hrun]
    refine List.Nodup.map_on (fun i hi j hj hij => ?_) (List.nodup_range _)
    rw [List.mem_range] at hi hj
    omega
  -- the nonce words determine the nonce
  apply List.Nodup.of_map fun w : UInt32 × UInt32 × UInt32 =>
    w.1.toNat + 2 ^ 32 * w.2.1.toNat + 2 ^ 64 * w.2.2.toNat
  rw [List.map_map]
  exact hnd

/-- A seed chunk and a generate request from `counter[1] = 2^32 - 1`: the first update carries
    into `counter[2]`, with a block function that reads the state. -/
theorem cc20Run_nonce_nodup_carry :
    [Cc20Event.seedChunk [1, 2, 3], .generate true (fun _ => 0) 100].length < 2 ^ 96 ∧
    ((∀ u buf usedWords,
      nonceVal (lcCc20DrngUpdate (fun s _ => s.counter 0) u buf usedWords).1.counter =
          (nonceVal u.counter + 1) % 2 ^ 96 ∧
        (lcCc20DrngUpdate (fun s _ => s.counter 0) u buf usedWords).1.counter 0 =
          if 8 < usedWords then u.counter 0 + 1 else u.counter 0) ∧
    (List.scanl (cc20Step fun s _ => s.counter 0) ⟨fun _ => 0, ![0, 0xffffffff, 0, 0]⟩
        [Cc20Event.seedChunk [1, 2, 3], .generate true (fun _ => 0) 100]).map
        (fun u => nonceVal u.counter) =
      (List.range ([Cc20Event.seedChunk [1, 2, 3], .generate true (fun _ => 0) 100].length + 1)).map
        (fun i => (nonceVal ![0, 0xffffffff, 0, 0] + i) % 2 ^ 96) ∧
    ((List.scanl (cc20Step fun s _ => s.counter 0) ⟨fun _ => 0, ![0, 0xffffffff, 0, 0]⟩
        [Cc20Event.seedChunk [1, 2, 3], .generate true (fun _ => 0) 100]).map nonceWords).Nodup) :=
  ⟨by decide, cc20Run_nonce_nodup _ _ _ (by decide)⟩

/-! ### Seeding advances the nonce -/

/-- Run lemma on the final state: after a run the nonce has advanced by its length. -/
theorem nonceVal_foldl (t : Cc20State) (events : List Cc20Event) :
    nonceVal (events.foldl (cc20Step chacha) t).counter =
      (nonceVal t.counter + events.length) % 2 ^ 96 := by
  induction events generalizing t with
  | nil => rw [List.foldl_nil, List.length_nil, Nat.add_zero, Nat.mod_eq_of_lt (nonceVal_lt _)]
  | cons e events ih =>
    rw [List.foldl_cons, ih, nonceVal_cc20Step, List.length_cons, Nat.mod_add_mod,
      Nat.add_assoc, Nat.add_comm 1]

/-- **`lc_cc20_drng_seed` advances the nonce once per chunk.**  For every state and seed of
    any length, seeding makes one `cc20_block` call for each of the `⌈len / 32⌉` chunks and
    advances the 96-bit nonce by that many steps, modulo `2 ^ 96`. -/
theorem lcCc20DrngSeed_nonce (t : Cc20State) (inbuf : List UInt8) :
    (lcCc20DrngSeed chacha t inbuf).2.length = (inbuf.length + 31) / 32 ∧
      nonceVal (lcCc20DrngSeed chacha t inbuf).1.counter =
        (nonceVal t.counter + (inbuf.length + 31) / 32) % 2 ^ 96 := by
  refine ⟨length_lcCc20DrngSeed chacha t inbuf, ?_⟩
  rw [lcCc20DrngSeed_eq_foldl, nonceVal_foldl]
  simp [seedEvents]

end Leancrypto.Drng
