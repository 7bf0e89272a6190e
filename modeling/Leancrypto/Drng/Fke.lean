import Leancrypto.Bytes

namespace Leancrypto.Drng

/-!
# Fast-key-erasure DRNGs — the shared generate loop and the documented design

KMAC-DRNG (`kmac_drng.c`) and XDRBG (`lc_xdrbg_drng_*`) generate output the same way: while bytes
are asked for, a transient XOF context is keyed with the stored key, the first key-size
bytes it squeezes overwrite that key, and the next `todo = min(outlen, chunk)` bytes go to
the caller.  Both encode their additional input the same way too.

* `fkeEncode` — `alpha` clamped to its first 84 bytes, then the byte `n + |alpha'|`;
* `fkeGenerateLoop` — the `while (outlen)` loop of both `… _generate` functions, over the
  member's `fke_init_ctx` and XOF `final`;
* `fkeKey`, `fkeOutput` — the documented construction: the key chain
  `K_{i+1} = T_i[0, k)` and the output `R_1 ++ … ++ R_N` with `R_{i+1} = T_i[k, k + |R_{i+1}|)`;
* `fkeGenerateLoop_snd_eq_fkeOutput` — **the loop refines the construction** whenever
  `fke_init_ctx` stores the first `k` bytes of one stream and `final` continues it;
* `FkeDesign` — the DRBG of the spec's fast-key-erasure pattern as a state machine over
  `(key, seeded)`, which both DRNGs refine call by call and over whole runs.
-/

/-! ### The encoding of the additional input -/

/-- The encoding of XDRBG appendix B shared by `lc_kmac256_drng_encode` and
    `lc_xdrbg_drng_encode`: absorb the first `min(|alpha|, 84)` bytes of `alpha`, then the
    byte `(uint8_t)(n + alphalen)`. -/
def fkeEncode {κ : Type} (update : κ → List UInt8 → κ) (ctx : κ) (n : Nat)
    (alpha : List UInt8) : κ :=
  let alphalen := if alpha.length > 84 then 84 else alpha.length
  update (update ctx (alpha.take alphalen)) [UInt8.ofNat (n + alphalen)]

/-- The encoded string as the specification writes it: `alpha' ++ [n + |alpha'|]`, with
    `alpha'` the first 84 bytes of `alpha` at most. -/
def fkeEncoded (n : Nat) (alpha : List UInt8) : List UInt8 :=
  alpha.take 84 ++ [UInt8.ofNat (n + (alpha.take 84).length)]

/-- Over a context that appends what it absorbs, the two updates of `fkeEncode` absorb
    `fkeEncoded`. -/
theorem fkeEncode_eq {κ : Type} {update : κ → List UInt8 → κ}
    (happend : ∀ c a b, update (update c a) b = update c (a ++ b)) (ctx : κ) (n : Nat)
    (alpha : List UInt8) :
    fkeEncode update ctx n alpha = update ctx (fkeEncoded n alpha) := by
  simp only [fkeEncode, fkeEncoded, happend]
  split_ifs with h
  · simp [h.le]
  · simp [List.take_of_length_le (Nat.not_lt.mp h)]

/-! ### The generate loop -/

section Loop

variable {σ κ : Type} (fkeInitCtx : σ → σ × κ) (final : κ → Nat → κ × List UInt8)
  (chunk : Nat)

/-- The `while (outlen)` loop of `lc_kmac256_drng_generate` and `lc_xdrbg_drng_generate`:
    `todo = min(outlen, chunk)`; `fke_init_ctx` re-keys the state and returns the XOF
    context, from which `final` squeezes the `todo` output bytes. -/
def fkeGenerateLoop (hchunk : 0 < chunk) (state : σ) (outlen : Nat) : σ × List UInt8 :=
  if _ : outlen = 0 then (state, []) else
  let todo := min outlen chunk
  let s := fkeInitCtx state
  let rest := fkeGenerateLoop hchunk s.1 (outlen - todo)
  (rest.1, (final s.2 todo).2 ++ rest.2)
termination_by outlen
decreasing_by omega

variable (hchunk : 0 < chunk)
include hchunk

theorem fkeGenerateLoop_zero (state : σ) :
    fkeGenerateLoop fkeInitCtx final chunk hchunk state 0 = (state, []) := by
  rw [fkeGenerateLoop, dif_pos rfl]

/-- One round of the loop. -/
theorem fkeGenerateLoop_pos (state : σ) {outlen : Nat} (h : 0 < outlen) :
    fkeGenerateLoop fkeInitCtx final chunk hchunk state outlen =
      ((fkeGenerateLoop fkeInitCtx final chunk hchunk (fkeInitCtx state).1
          (outlen - min outlen chunk)).1,
        (final (fkeInitCtx state).2 (min outlen chunk)).2 ++
          (fkeGenerateLoop fkeInitCtx final chunk hchunk (fkeInitCtx state).1
            (outlen - min outlen chunk)).2) := by
  rw [fkeGenerateLoop, dif_neg (by omega)]

/-- The loop writes exactly `outlen` bytes when `final` squeezes what it is asked for. -/
theorem length_fkeGenerateLoop (hfinal : ∀ c n, (final c n).2.length = n) (state : σ)
    (outlen : Nat) : (fkeGenerateLoop fkeInitCtx final chunk hchunk state outlen).2.length
      = outlen := by
  induction outlen using Nat.strong_induction_on generalizing state with
  | _ outlen ih =>
    rcases Nat.eq_zero_or_pos outlen with rfl | h
    · simp [fkeGenerateLoop_zero _ _ _ hchunk]
    · rw [fkeGenerateLoop_pos _ _ _ hchunk _ h, List.length_append, hfinal,
        ih _ (by omega)]
      omega

end Loop

/-! ### The documented construction -/

/-- The documented key chain: `K_0 = K`, and `K_{i+1}` is the first `k` bytes of the output
    stream `T_i = stream K_i`. -/
def fkeKey (stream : List UInt8 → Nat → UInt8) (k : Nat) (K : List UInt8) : Nat → List UInt8
  | 0 => K
  | i + 1 => readBytes (stream (fkeKey stream k K i)) 0 k

/-- `N = ⌈outlen / chunk⌉`, the number of chunks. -/
def fkeChunks (chunk outlen : Nat) : Nat := (outlen + chunk - 1) / chunk

/-- The documented output `R_1 ++ … ++ R_N`: `R_{i+1}` has `min(chunk, outlen - i * chunk)`
    bytes, read from `T_i` after its first `k`. -/
def fkeOutput (stream : List UInt8 → Nat → UInt8) (k chunk : Nat) (K : List UInt8)
    (outlen : Nat) : List UInt8 :=
  (List.range (fkeChunks chunk outlen)).flatMap fun i =>
    readBytes (stream (fkeKey stream k K i)) k (min chunk (outlen - i * chunk))

/-- Every key of a chain from a `k`-byte key has `k` bytes. -/
theorem length_fkeKey (stream : List UInt8 → Nat → UInt8) {k : Nat} {K : List UInt8}
    (hK : K.length = k) (i : Nat) : (fkeKey stream k K i).length = k := by
  cases i <;> simp [fkeKey, hK]

theorem fkeChunks_zero {chunk : Nat} (hchunk : 0 < chunk) : fkeChunks chunk 0 = 0 :=
  Nat.div_eq_of_lt (by omega)

/-- One chunk of `min(outlen, chunk)` bytes, then the chunks of the rest. -/
theorem fkeChunks_step {chunk outlen : Nat} (hchunk : 0 < chunk) (h : 0 < outlen) :
    fkeChunks chunk outlen = fkeChunks chunk (outlen - min outlen chunk) + 1 := by
  unfold fkeChunks
  rcases Nat.lt_or_ge outlen chunk with hlt | hge
  · rw [show outlen - min outlen chunk + chunk - 1 = chunk - 1 by omega,
      Nat.div_eq_of_lt (show chunk - 1 < chunk by omega)]
    exact Nat.div_eq_of_lt_le (by omega) (by omega)
  · rw [show outlen + chunk - 1 = (outlen - min outlen chunk + chunk - 1) + chunk by omega,
      Nat.add_div_right _ hchunk]

/-! ### The loop refines the construction -/

section Refine

variable {σ κ : Type} {fkeInitCtx : σ → σ × κ} {final : κ → Nat → κ × List UInt8}
  {chunk : Nat} (hchunk : 0 < chunk)

/-- The loop, unrolled: after `N` rounds the state is `fke_init_ctx` applied `N` times, and
    round `i` squeezes `min(chunk, outlen - i * chunk)` bytes from the `i`-th context. -/
theorem fkeGenerateLoop_eq (state : σ) (outlen : Nat) :
    fkeGenerateLoop fkeInitCtx final chunk hchunk state outlen =
      ((fun s => (fkeInitCtx s).1)^[fkeChunks chunk outlen] state,
        (List.range (fkeChunks chunk outlen)).flatMap fun i =>
          (final (fkeInitCtx ((fun s => (fkeInitCtx s).1)^[i] state)).2
            (min chunk (outlen - i * chunk))).2) := by
  induction outlen using Nat.strong_induction_on generalizing state with
  | _ outlen ih =>
    rcases Nat.eq_zero_or_pos outlen with rfl | h
    · simp [fkeGenerateLoop_zero _ _ _ hchunk, fkeChunks_zero hchunk]
    · rw [fkeGenerateLoop_pos _ _ _ hchunk _ h, ih _ (by omega), fkeChunks_step hchunk h,
        List.range_succ_eq_map, List.flatMap_cons, List.flatMap_map]
      refine Prod.ext (Function.iterate_succ_apply _ _ _).symm (congrArg₂ _ ?_ ?_)
      · rw [Nat.min_comm, Nat.zero_mul, Nat.sub_zero]; rfl
      · refine List.flatMap_congr fun i _ => ?_
        rw [Function.iterate_succ_apply, Nat.succ_mul,
          show outlen - min outlen chunk - i * chunk = outlen - (i * chunk + chunk) by omega]

variable (key : σ → List UInt8) (stream : List UInt8 → Nat → UInt8) (k : Nat)
  (hkey : ∀ s, key (fkeInitCtx s).1 = readBytes (stream (key s)) 0 k)

include hkey in
/-- The keys the rounds store form the documented chain. -/
theorem key_iterate_fkeInitCtx (state : σ) (i : Nat) :
    key ((fun s => (fkeInitCtx s).1)^[i] state) = fkeKey stream k (key state) i := by
  induction i with
  | zero => rfl
  | succ i ih => rw [Function.iterate_succ_apply', hkey, ih, fkeKey]

include hkey in
/-- **The loop refines the documented construction**: when `fke_init_ctx` stores the first
    `k` bytes of the stream of the stored key and `final` continues that stream after
    them, the loop writes `R_1 ++ … ++ R_N`. -/
theorem fkeGenerateLoop_snd_eq_fkeOutput
    (hfinal : ∀ s n, (final (fkeInitCtx s).2 n).2 = readBytes (stream (key s)) k n)
    (state : σ) (outlen : Nat) :
    (fkeGenerateLoop fkeInitCtx final chunk hchunk state outlen).2 =
      fkeOutput stream k chunk (key state) outlen := by
  rw [fkeGenerateLoop_eq hchunk, fkeOutput]
  exact List.flatMap_congr fun i _ => by
    rw [hfinal, key_iterate_fkeInitCtx key stream k hkey]

end Refine

/-! ### The abstract DRBG -/

/-- The state of a fast-key-erasure DRBG as the spec describes it: the key and the
    `initially_seeded` flag. -/
structure FkeState where
  key : List UInt8
  seeded : Bool
  deriving DecidableEq, Repr

/-- The calls of the DRBG interface (`lc_rng_seed`, `lc_rng_generate`, `lc_rng_zero`). -/
inductive DrngCall where
  | seed (seed pers : List UInt8)
  | generate (alpha : List UInt8) (outlen : Nat)
  | zero
  deriving DecidableEq, Repr

/-- A fast-key-erasure design: its key size, its chunk size, the stream generation derives
    from the key and the additional input, and the stream seeding derives from the prior
    flag, the key, the seed and the personalisation string. -/
structure FkeDesign where
  keysize : Nat
  chunk : Nat
  genStream : List UInt8 → List UInt8 → Nat → UInt8
  seedStream : Bool → List UInt8 → List UInt8 → List UInt8 → Nat → UInt8

namespace FkeDesign

variable (D : FkeDesign)

/-- One call of the documented DRBG: seeding stores the first `keysize` bytes of the seed
    stream and sets the flag; generation follows the key chain; zeroing wipes the key and
    clears the flag. -/
def step (s : FkeState) : DrngCall → FkeState × List UInt8
  | .seed seed pers => (⟨readBytes (D.seedStream s.seeded s.key seed pers) 0 D.keysize, true⟩, [])
  | .generate alpha outlen =>
    (⟨fkeKey (D.genStream alpha) D.keysize s.key (fkeChunks D.chunk outlen), s.seeded⟩,
      fkeOutput (D.genStream alpha) D.keysize D.chunk s.key outlen)
  | .zero => (⟨List.replicate D.keysize 0, false⟩, [])

/-- A run of calls: the final state and every byte generated, in order. -/
def run (s : FkeState) : List DrngCall → FkeState × List UInt8
  | [] => (s, [])
  | c :: cs => ((run (D.step s c).1 cs).1, (D.step s c).2 ++ (run (D.step s c).1 cs).2)

end FkeDesign

/-! ### Refinement of the design by a model -/

section Simulation

variable {σ : Type} (D : FkeDesign) (abs : σ → FkeState) (call : σ → DrngCall → σ × List UInt8)

/-- A run of a model's calls. -/
def drngRun (s : σ) : List DrngCall → σ × List UInt8
  | [] => (s, [])
  | c :: cs => ((drngRun (call s c).1 cs).1, (call s c).2 ++ (drngRun (call s c).1 cs).2)

/-- **Step simulation gives run simulation**: a model whose calls keep an invariant and, from
    states that satisfy it, map to the design's steps generates over every run what the
    design generates. -/
theorem drngRun_refines (inv : σ → Prop) (hinv : ∀ s c, inv s → inv (call s c).1)
    (hstep : ∀ s c, inv s → (abs (call s c).1, (call s c).2) = D.step (abs s) c)
    (s : σ) (hs : inv s) (cs : List DrngCall) :
    (abs (drngRun call s cs).1, (drngRun call s cs).2) = D.run (abs s) cs := by
  induction cs generalizing s with
  | nil => rfl
  | cons c cs ih =>
    simp only [drngRun, FkeDesign.run, ← hstep s c hs, ← ih _ (hinv s c hs)]

end Simulation

end Leancrypto.Drng
