import Mathlib
import Leancrypto.Bytes

namespace Leancrypto.SlhDsa

/-!
# SLH-DSA WOTS+ — chains and the public key from a signature

`wots_pk_from_sig_c` derives the chain lengths of a message (`chain_lengths_c`: the
`base_w` digits of the message and of its checksum) and runs `gen_chain` once per chain,
from the signature block to the end of the chain.  `gen_chain` calls the tweakable hash
`thash` once per position; both propagate failures with `CKINT`.

* `genChain`, `chainLengthsC`, `wotsPkFromSigC` — the functions, with `thash` a pure
  function of the address and the input that returns an error code with its output;
* `wotsPkFromSigC_blocks` — when every chain succeeds, block `i` of `pk` is chain `i` run
  from signature block `i` for `w - 1 - l_i` steps;
* `wotsPkFromSigC_thash_fails` — a failing `thash` stops the loop, yet the function
  returns 0;
* `chainSteps`, `genChain_comp` — when `thash` does not fail, `gen_chain` applies exactly
  the hash steps at positions `start .. min((start + steps) mod 2^32, w) - 1`, so chains
  compose while `start + steps` stays below `2^32`; `genChain_wraps` — past it the
  `unsigned int` sum wraps and the chain stops early.
-/

/-- The WOTS+ parameters of an SLH-DSA parameter set, from headers the sources do not
    include: `LC_SPX_N`, `LC_SPX_WOTS_LOGW`, `LC_SPX_WOTS_LEN1` and `LC_SPX_WOTS_LEN2`. -/
structure WotsParams where
  n : Nat
  logW : Nat
  len1 : Nat
  len2 : Nat
  deriving DecidableEq, Repr

/-- `LC_SPX_WOTS_W`. -/
def WotsParams.w (P : WotsParams) : Nat := 2 ^ P.logW

/-- `LC_SPX_WOTS_LEN`. -/
def WotsParams.len (P : WotsParams) : Nat := P.len1 + P.len2

/-- An SLH-DSA address as the WOTS+ code sees it.  Modelled from the spec:
    `set_chain_addr` and `set_hash_addr` are not in the sources; each overwrites one
    field of the address and leaves the other words (`rest`) alone. -/
structure WotsAddr where
  rest : List UInt32
  chainAddr : Nat
  hashAddr : Nat
  deriving DecidableEq, Repr

variable (P : WotsParams)

/-! ### `gen_chain` -/

/-- `gen_chain`: `out` starts as `input`, then one `thash` per position `i` from `start`
    while `i < start + steps` and `i < w`, under `addr` with hash address `i`.  `start` and
    `steps` are `unsigned int`s, so their sum is taken modulo `2^32`.  The return code is
    `ret`: `CKINT` keeps the last result and leaves the loop at a negative one. -/
def genChain (thash : WotsAddr → List UInt8 → Int × List UInt8) (input : List UInt8)
    (start steps : Nat) (addr : WotsAddr) : Int × List UInt8 :=
  go (min ((start + steps) % 2 ^ 32) P.w - start) start 0 input
where
  /-- The loop, with `k` positions left from `i`. -/
  go : Nat → Nat → Int → List UInt8 → Int × List UInt8
    | 0, _, ret, out => (ret, out)
    | k + 1, i, _, out =>
      let r := thash { addr with hashAddr := i } out
      if r.1 < 0 then r else go k (i + 1) r.1 r.2

/-! ### Chain lengths -/

/-- `base_w`: `outLen` digits of `logW` bits from `input`, most significant first.  A new
    byte is read whenever no bits are left; `bits` stays in `0..8` as `logW` divides 8,
    which the comment there requires. -/
def baseW (input : Nat → UInt8) (outLen : Nat) : List Nat :=
  go outLen 0 0 0
where
  /-- The loop: `k` digits left, the next byte at `inp`, the current byte and its unread
      bits. -/
  go : Nat → Nat → UInt8 → Nat → List Nat
    | 0, _, _, _ => []
    | k + 1, inp, total, bits =>
      let (inp, total, bits) :=
        if bits = 0 then (inp + 1, input inp, bits + 8) else (inp, total, bits)
      let bits := bits - P.logW
      ((total.toNat >>> bits) &&& (P.w - 1)) :: go k inp total bits

/-- `ull_to_bytes`: the low `outlen` bytes of `x`, most significant first.  Modelled from
    the spec: the function is not in the sources. -/
def ullToBytes (outlen x : Nat) : List UInt8 :=
  (List.range outlen).map fun i => UInt8.ofNat (x >>> (8 * (outlen - 1 - i)))

/-- `wots_checksum`: the `len2` base-`w` digits of `Σ (w - 1 - m_i)` over the first `len1`
    digits, shifted so that the unused bits are the least significant ones; the sum and
    the shift are `unsigned int` arithmetic. -/
def wotsChecksum (msgBaseW : List Nat) : List Nat :=
  let csum := (msgBaseW.take P.len1).foldl (fun c m => (c + (P.w - 1 - m)) % 2 ^ 32) 0
  let csum := (csum <<< ((8 - P.len2 * P.logW % 8) % 8)) % 2 ^ 32
  let csumBytes := ullToBytes ((P.len2 * P.logW + 7) / 8) csum
  baseW P (fun i => csumBytes.getD i 0) P.len2

/-- `chain_lengths_c`: the message digits followed by the checksum digits. -/
def chainLengthsC (msg : Nat → UInt8) : List Nat :=
  baseW P msg P.len1 ++ wotsChecksum P (baseW P msg P.len1)

theorem length_baseW_go (input : Nat → UInt8) (k inp : Nat) (total : UInt8) (bits : Nat) :
    (baseW.go P input k inp total bits).length = k := by
  induction k generalizing inp total bits with
  | zero => rfl
  | succ k ih => simp [baseW.go, ih]

@[simp] theorem length_chainLengthsC (msg : Nat → UInt8) :
    (chainLengthsC P msg).length = P.len := by
  simp [chainLengthsC, wotsChecksum, baseW, length_baseW_go, WotsParams.len]

/-! ### `wots_pk_from_sig_c` -/

variable (thash : WotsAddr → List UInt8 → Int × List UInt8) (sig : Nat → UInt8)
  (addr : WotsAddr)

/-- The loop body of `wots_pk_from_sig_c` for chain `i` of length `l`: `gen_chain` from
    signature block `i` for `w - 1 - l` steps under chain address `i`.  `gen_chain` sets
    the hash address before every `thash`, so the one an earlier chain leaves in `addr`
    is never read. -/
def wotsChain (i l : Nat) : Int × List UInt8 :=
  genChain P thash (readBytes sig (i * P.n) P.n) l (P.w - 1 - l) { addr with chainAddr := i }

/-- `wots_pk_from_sig_c`: the return value and the blocks written to `pk`, chain by
    chain.  `CKINT` leaves the loop at a failed chain, after its block; the function
    returns 0 either way. -/
def wotsPkFromSigC (msg : Nat → UInt8) : Int × List (List UInt8) :=
  (0, go (chainLengthsC P msg) 0)
where
  /-- The loop over the remaining chain lengths, from chain `i`. -/
  go : List Nat → Nat → List (List UInt8)
    | [], _ => []
    | l :: ls, i =>
      (wotsChain P thash sig addr i l).2 ::
        if (wotsChain P thash sig addr i l).1 < 0 then [] else go ls (i + 1)

theorem wotsPkFromSigC_go_ok (ls : List Nat) (i : Nat)
    (h : ∀ j < ls.length, 0 ≤ (wotsChain P thash sig addr (i + j) (ls.getD j 0)).1) :
    wotsPkFromSigC.go P thash sig addr ls i =
      (List.range ls.length).map fun j => (wotsChain P thash sig addr (i + j) (ls.getD j 0)).2 := by
  induction ls generalizing i with
  | nil => rfl
  | cons l ls ih =>
    have h0 := h 0 (by simp)
    have hs : ∀ j < ls.length,
        0 ≤ (wotsChain P thash sig addr (i + 1 + j) (ls.getD j 0)).1 := fun j hj => by
      simpa [Nat.add_assoc, Nat.add_comm 1 j] using h (j + 1) (by simp; omega)
    simp only [Nat.add_zero, List.getD_cons_zero] at h0
    simp only [wotsPkFromSigC.go, if_neg (not_lt.2 h0), ih (i + 1) hs, List.length_cons,
      List.range_succ_eq_map, List.map_cons, List.map_map, Nat.add_zero, List.getD_cons_zero]
    congr 1
    refine List.map_congr_left fun j _ => ?_
    simp [Nat.add_assoc, Nat.add_comm 1 j]

/-- **The public key, when every chain succeeds.**  If no `gen_chain` call of
    `wots_pk_from_sig_c` fails, block `i` of `pk` is `gen_chain` of signature block `i`
    from `l_i` for `w - 1 - l_i` steps under chain address `i`, for every chain
    `i < len`, with `l = chain_lengths_c(msg)`. -/
theorem wotsPkFromSigC_blocks (msg : Nat → UInt8)
    (h : ∀ i < P.len, 0 ≤ (wotsChain P thash sig addr i ((chainLengthsC P msg).getD i 0)).1) :
    (wotsPkFromSigC P thash sig addr msg).2 =
      (List.range P.len).map fun i =>
        (wotsChain P thash sig addr i ((chainLengthsC P msg).getD i 0)).2 := by
  have h' := wotsPkFromSigC_go_ok P thash sig addr (chainLengthsC P msg) 0 (by simpa using h)
  simpa using h'

/-- The parameters of a toy instance: `n = 1`, `w = 4`, two message digits and one
    checksum digit. -/
def wotsParamsToy : WotsParams := ⟨1, 2, 2, 1⟩

/-- The WOTS+ parameters of the 128-bit parameter sets: `n = 16`, `w = 16`, 32 message
    digits and 3 checksum digits. -/
def wotsParams128 : WotsParams := ⟨16, 4, 32, 3⟩

/-- **A failed chain is not reported.**  With the 128-bit parameters, the zero message
    (whose first chain length is 0) and a `thash` that fails, the first `gen_chain`
    returns -1, and `wots_pk_from_sig_c` returns 0. -/
theorem wotsPkFromSigC_thash_fails :
    (chainLengthsC wotsParams128 (fun _ => 0)).getD 0 0 = 0 ∧
    (wotsChain wotsParams128 (fun _ out => (-1, out)) (fun _ => 0) ⟨[], 0, 0⟩ 0 0).1 = -1 ∧
    (wotsPkFromSigC wotsParams128 (fun _ out => (-1, out)) (fun _ => 0) ⟨[], 0, 0⟩
      (fun _ => 0)).1 = 0 := by
  decide

/-! ### Chain composition -/

/-- The hash steps at positions `ps`, in order: `out = thash(out)` under hash address `i`
    for each `i` of `ps`. -/
def chainSteps (ps : List Nat) (x : List UInt8) : List UInt8 :=
  ps.foldl (fun out i => (thash { addr with hashAddr := i } out).2) x

theorem chainSteps_append (ps qs : List Nat) (x : List UInt8) :
    chainSteps thash addr (ps ++ qs) x = chainSteps thash addr qs (chainSteps thash addr ps x) :=
  List.foldl_append _ _ _ _

/-- The loop of `gen_chain` from position `i` for `k` positions, when no `thash` fails. -/
theorem genChain_go_ok (hok : ∀ ad y, 0 ≤ (thash ad y).1) (k i : Nat) (ret : Int)
    (out : List UInt8) :
    (genChain.go thash addr k i ret out).2 = chainSteps thash addr (List.range' i k) out := by
  induction k generalizing i ret out with
  | zero => rfl
  | succ k ih => rw [genChain.go, if_neg (not_lt.2 (hok _ _)), ih, List.range'_succ]; rfl

/-- `gen_chain` applies the hash steps at positions
    `start .. min((start + steps) mod 2^32, w) - 1`. -/
theorem genChain_eq_chainSteps (hok : ∀ ad y, 0 ≤ (thash ad y).1) (x : List UInt8)
    (start steps : Nat) :
    (genChain P thash x start steps addr).2 =
      chainSteps thash addr (List.range' start (min ((start + steps) % 2 ^ 32) P.w - start)) x :=
  genChain_go_ok thash addr hok _ _ _ _

/-- **Chain composition.**  When no `thash` fails and `s + a + b` is below `2^32`, running a
    chain `a` steps from `s` and then `b` steps from `s + a` is running it `a + b` steps from
    `s`, for every split; and a chain run past the end, with `s + a` below `2^32`, applies
    exactly the steps at positions `s .. w - 1`. -/
theorem genChain_comp (hok : ∀ ad y, 0 ≤ (thash ad y).1) (x : List UInt8) (s a b : Nat) :
    (s + a + b < 2 ^ 32 →
      (genChain P thash (genChain P thash x s a addr).2 (s + a) b addr).2 =
        (genChain P thash x s (a + b) addr).2) ∧
    (P.w < s + a → s + a < 2 ^ 32 →
      (genChain P thash x s a addr).2 = chainSteps thash addr (List.range' s (P.w - s)) x) := by
  simp only [genChain_eq_chainSteps P thash addr hok]
  refine ⟨fun h32 => ?_, fun h h32 => by rw [Nat.mod_eq_of_lt h32,
    show min (s + a) P.w - s = P.w - s by omega]⟩
  rw [← chainSteps_append, ← Nat.add_assoc, Nat.mod_eq_of_lt h32, Nat.mod_eq_of_lt (by omega)]
  congr 1
  by_cases h : s + a ≤ P.w
  · -- both runs stay inside the chain: the positions `s .. s + a - 1`, then the rest
    have happ := List.range'_append s a (min (s + a + b) P.w - (s + a)) 1
    rw [Nat.one_mul] at happ
    rw [show min (s + a) P.w - s = a by omega, happ]
    congr 1
    omega
  · -- the first run already reaches the end; the second one has nothing to do
    rw [show min (s + a + b) P.w - (s + a) = 0 by omega, List.range'_zero, List.append_nil]
    congr 1
    omega

theorem genChain_comp_toy :
    (∀ ad y, 0 ≤ (((fun _ out => (0, out.map (· + 1))) : WotsAddr → List UInt8 → Int × List UInt8)
      ad y).1) ∧
    ((1 + 5 + 2 < 2 ^ 32 →
      (genChain wotsParamsToy (fun _ out => (0, out.map (· + 1)))
          (genChain wotsParamsToy (fun _ out => (0, out.map (· + 1))) [7] 1 5 ⟨[], 0, 0⟩).2 (1 + 5) 2
          ⟨[], 0, 0⟩).2 =
        (genChain wotsParamsToy (fun _ out => (0, out.map (· + 1))) [7] 1 (5 + 2) ⟨[], 0, 0⟩).2) ∧
    (wotsParamsToy.w < 1 + 5 → 1 + 5 < 2 ^ 32 →
      (genChain wotsParamsToy (fun _ out => (0, out.map (· + 1))) [7] 1 5 ⟨[], 0, 0⟩).2 =
        chainSteps (fun _ out => (0, out.map (· + 1))) ⟨[], 0, 0⟩
          (List.range' 1 (wotsParamsToy.w - 1)) [7])) :=
  ⟨fun _ _ => le_refl 0, genChain_comp wotsParamsToy _ ⟨[], 0, 0⟩ (fun _ _ => le_refl 0) [7] 1 5 2⟩

/-- **The step sum wraps.**  With `w = 4`, `start = 1` and `steps = 2^32 - 1`, `start + steps`
    is `0` as an `unsigned int`, so `gen_chain` applies no hash step although `start + steps`
    exceeds `w`: the steps at positions `1 .. w - 1` would change the value. -/
theorem genChain_wraps :
    wotsParamsToy.w < 1 + (2 ^ 32 - 1) ∧
      (genChain wotsParamsToy (fun _ out => (0, out.map (· + 1))) [7] 1 (2 ^ 32 - 1) ⟨[], 0, 0⟩).2 =
        [7] ∧
      chainSteps (fun _ out => (0, out.map (· + 1))) ⟨[], 0, 0⟩
        (List.range' 1 (wotsParamsToy.w - 1)) [7] = [10] := by
  decide

end Leancrypto.SlhDsa
