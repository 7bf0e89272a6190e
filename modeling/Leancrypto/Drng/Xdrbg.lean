import Leancrypto.Drng.Fke

namespace Leancrypto.Drng

/-!
# XDRBG — `lc_xdrbg_drng_*`

The state holds the chunk size, a status byte (the key-size variant and the
initially-seeded bit), the XOF and the key `V`, whose length the variant fixes.  Every
operation runs one XOF over `V`, the input and the encoded `alpha`, and keeps the first
`k` output bytes as the new `V` (Algorithm 2 of the XDRBG specification).

* `HashCtx`, `lcHashInit`, `lcHashUpdate`, `lcHashSetDigestsize`, `lcHashFinal` — the XOF
  context of `lc_hash`, over its output stream `xof X`;
* `lcXdrbgKeysize`, `lcXdrbgDrngEncode`, `lcXdrbgDrngFkeInitCtx`, `lcXdrbgDrngGenerate`,
  `lcXdrbgDrngSeedNocheck`, `lcXdrbgDrngZero` — the DRBG;
* `xdrbg_refines` — **XDRBG refines Algorithm 2**: generate, seed and zero;
* `xdrbgRun_refines` — over every run of calls.
-/

/-- `enum lc_xdrbg_status_keysize`: the key-size bits of `status`. -/
inductive XdrbgStatusKeysize where
  | undefined
  | xdrbg128
  | xdrbg256
  | xdrbg512
  deriving DecidableEq, Repr

/-- `LC_XDRBG128_DRNG_KEYSIZE`, `LC_XDRBG256_DRNG_KEYSIZE` and `LC_XDRBG512_DRNG_KEYSIZE`,
    from `lc_xdrbg.h`, which is not part of the sources. -/
structure XdrbgParams where
  keysize128 : Nat
  keysize256 : Nat
  keysize512 : Nat

/-- `struct lc_xdrbg_drng_state`: `chunksize`, never zero as the context macros install it;
    the two fields of `status`; and the key buffer `v`. -/
structure XdrbgDrngState where
  chunksize : Nat
  chunksize_pos : 0 < chunksize
  keysize : XdrbgStatusKeysize
  initiallySeeded : Bool
  v : Nat → UInt8

/-- `lc_xdrbg_keysize`: `0xff` for an undefined variant. -/
def lcXdrbgKeysize (P : XdrbgParams) (state : XdrbgDrngState) : Nat :=
  match state.keysize with
  | .xdrbg128 => P.keysize128
  | .xdrbg256 => P.keysize256
  | .xdrbg512 => P.keysize512
  | .undefined => 0xff

/-- The key size is read from `status` alone. -/
@[simp] theorem lcXdrbgKeysize_mk (P : XdrbgParams) (state : XdrbgDrngState) (c : Nat)
    (h : 0 < c) (b : Bool) (w : Nat → UInt8) :
    lcXdrbgKeysize P ⟨c, h, state.keysize, b, w⟩ = lcXdrbgKeysize P state :=
  rfl

/-! ### The XOF context -/

/-- Modelled from the spec: an `lc_hash` XOF context, with the input absorbed so far, the
    digest size of the next `final` and the number of output bytes already squeezed.  Its
    output is one stream; each `lc_hash_final` continues it. -/
structure HashCtx where
  msg : List UInt8
  digestsize : Nat
  squeezed : Nat

/-- Modelled from the spec: `lc_hash_init`; it does not fail on a context of the caller's
    stack. -/
def lcHashInit : HashCtx := ⟨[], 0, 0⟩

/-- Modelled from the spec: `lc_hash_update` absorbs `d`. -/
def lcHashUpdate (ctx : HashCtx) (d : List UInt8) : HashCtx := { ctx with msg := ctx.msg ++ d }

/-- Modelled from the spec: `lc_hash_set_digestsize`. -/
def lcHashSetDigestsize (ctx : HashCtx) (n : Nat) : HashCtx := { ctx with digestsize := n }

theorem lcHashUpdate_append (ctx : HashCtx) (a b : List UInt8) :
    lcHashUpdate (lcHashUpdate ctx a) b = lcHashUpdate ctx (a ++ b) := by
  simp [lcHashUpdate]

section Xof

/- The XOF of the instance as a stream: byte `j` of its output on input `X`. -/
variable (xof : List UInt8 → Nat → UInt8) (P : XdrbgParams)

/-- Modelled from the spec: `lc_hash_final` on an XOF squeezes the next `digestsize`
    bytes. -/
def lcHashFinal (ctx : HashCtx) : HashCtx × List UInt8 :=
  ({ ctx with squeezed := ctx.squeezed + ctx.digestsize },
    readBytes (xof ctx.msg) ctx.squeezed ctx.digestsize)

/-- `lc_xdrbg_xof_final`. -/
def lcXdrbgXofFinal (ctx : HashCtx) (digestLen : Nat) : HashCtx × List UInt8 :=
  lcHashFinal xof (lcHashSetDigestsize ctx digestLen)

@[simp] theorem length_lcXdrbgXofFinal (ctx : HashCtx) (n : Nat) :
    (lcXdrbgXofFinal xof ctx n).2.length = n := by
  simp [lcXdrbgXofFinal, lcHashFinal, lcHashSetDigestsize]

/-! ### The DRBG -/

/-- `LC_XDRBG_DRNG_ENCODE_N`. -/
def lcXdrbgDrngEncodeN (x : Nat) : Nat := x * 85

/-- `lc_xdrbg_drng_encode`: the encoding byte is `n + alphalen`. -/
def lcXdrbgDrngEncode (ctx : HashCtx) (n : Nat) (alpha : List UInt8) : HashCtx :=
  fkeEncode lcHashUpdate ctx n alpha

/-- `lc_xdrbg_drng_fke_init_ctx`: absorb `V` and the encoded `alpha`, overwrite `V` with the
    first `k` output bytes; the context, ready to squeeze the rest, goes back to the
    caller. -/
def lcXdrbgDrngFkeInitCtx (state : XdrbgDrngState) (alpha : List UInt8) :
    XdrbgDrngState × HashCtx :=
  let keysize := lcXdrbgKeysize P state
  let ctx := lcHashUpdate lcHashInit (readBytes state.v 0 keysize)
  let ctx := lcXdrbgDrngEncode ctx (lcXdrbgDrngEncodeN 2) alpha
  let r := lcXdrbgXofFinal xof ctx keysize
  ({ state with v := fillBuffer state.v r.2 }, r.1)

/-- `lc_xdrbg_drng_generate`: the fast-key-erasure loop in chunks of `state->chunksize`
    bytes. -/
def lcXdrbgDrngGenerate (state : XdrbgDrngState) (alpha : List UInt8) (outlen : Nat) :
    XdrbgDrngState × List UInt8 :=
  fkeGenerateLoop (fun s => lcXdrbgDrngFkeInitCtx xof P s alpha) (lcXdrbgXofFinal xof)
    state.chunksize state.chunksize_pos state outlen

/-- `lc_xdrbg_drng_seed_nocheck`: on reseeding `V` is absorbed first, on the first seeding
    the flag is set instead; then the seed and `alpha` encoded with the prior flag, and the
    first `k` output bytes replace `V`. -/
def lcXdrbgDrngSeedNocheck (state : XdrbgDrngState) (seed alpha : List UInt8) :
    XdrbgDrngState :=
  let keysize := lcXdrbgKeysize P state
  let initiallySeeded := state.initiallySeeded
  let (ctx, state) :=
    if initiallySeeded then (lcHashUpdate lcHashInit (readBytes state.v 0 keysize), state)
    else (lcHashInit, { state with initiallySeeded := true })
  let ctx := lcHashUpdate ctx seed
  let ctx := lcXdrbgDrngEncode ctx (lcXdrbgDrngEncodeN initiallySeeded.toNat) alpha
  { state with v := fillBuffer state.v (lcXdrbgXofFinal xof ctx keysize).2 }

/-- `lc_xdrbg_drng_zero`: clear the initially-seeded bit and wipe the `k` key bytes. -/
def lcXdrbgDrngZero (state : XdrbgDrngState) : XdrbgDrngState :=
  let state := { state with initiallySeeded := false }
  { state with v := fillBuffer state.v (List.replicate (lcXdrbgKeysize P state) 0) }

/-! ### Algorithm 2 -/

/-- The stream of one generate chunk: `XOF(V ++ alpha' ++ [170 + |alpha'|])`. -/
def xdrbgGenerateStream (alpha V : List UInt8) : Nat → UInt8 :=
  xof (V ++ fkeEncoded 170 alpha)

/-- The stream of seeding with prior flag `s`: `XOF([V ++] seed ++ alpha' ++ [85 * s + |alpha'|])`,
    with `V` only on reseeding. -/
def xdrbgSeedStream (s : Bool) (V seed alpha : List UInt8) : Nat → UInt8 :=
  xof ((if s then V else []) ++ seed ++ fkeEncoded (85 * s.toNat) alpha)

/-- XDRBG as a fast-key-erasure design, for a key size and a chunk size. -/
def xdrbgDesign (k chunk : Nat) : FkeDesign :=
  ⟨k, chunk, xdrbgGenerateStream xof, xdrbgSeedStream xof⟩

/-- The design's view of a state: the `k` key bytes and the flag. -/
def XdrbgDrngState.toFke (state : XdrbgDrngState) : FkeState :=
  ⟨readBytes state.v 0 (lcXdrbgKeysize P state), state.initiallySeeded⟩

/-! ### Spec lemmas -/

/-- `fke_init_ctx` stores bytes `[0, k)` of the chunk's stream in `v`, and leaves the context
    after them. -/
theorem lcXdrbgDrngFkeInitCtx_spec (state : XdrbgDrngState) (alpha : List UInt8) :
    (lcXdrbgDrngFkeInitCtx xof P state alpha).1 =
        { state with
          v := fillBuffer state.v (readBytes (xdrbgGenerateStream xof alpha
            (readBytes state.v 0 (lcXdrbgKeysize P state))) 0 (lcXdrbgKeysize P state)) } ∧
      ∀ n, (lcXdrbgXofFinal xof (lcXdrbgDrngFkeInitCtx xof P state alpha).2 n).2 =
        readBytes (xdrbgGenerateStream xof alpha (readBytes state.v 0 (lcXdrbgKeysize P state)))
          (lcXdrbgKeysize P state) n := by
  simp [lcXdrbgDrngFkeInitCtx, lcXdrbgDrngEncode, fkeEncode_eq lcHashUpdate_append,
    lcXdrbgXofFinal, lcHashFinal, lcHashSetDigestsize, lcHashUpdate, lcHashInit,
    xdrbgGenerateStream, lcXdrbgDrngEncodeN]

/-- The states the loop passes through: `v` holds the chain's `i`-th key, nothing else
    changes. -/
theorem iterate_lcXdrbgDrngFkeInitCtx (state : XdrbgDrngState) (alpha : List UInt8)
    (i : Nat) :
    (fun s => (lcXdrbgDrngFkeInitCtx xof P s alpha).1)^[i] state =
      { state with
        v := fillBuffer state.v (fkeKey (xdrbgGenerateStream xof alpha)
          (lcXdrbgKeysize P state) (readBytes state.v 0 (lcXdrbgKeysize P state)) i) } := by
  induction i with
  | zero => simp [fkeKey]
  | succ i ih =>
    rw [Function.iterate_succ_apply', ih, (lcXdrbgDrngFkeInitCtx_spec xof P _ alpha).1]
    simp only [lcXdrbgKeysize_mk, fkeKey]
    have hk := length_fkeKey (xdrbgGenerateStream xof alpha)
      (length_readBytes state.v 0 (lcXdrbgKeysize P state)) i
    rw [readBytes_fillBuffer _ hk, fillBuffer_fillBuffer _ (by simp [hk])]

/-- `lc_xdrbg_drng_generate` writes the documented output and leaves the last key of the
    chain in `v`. -/
theorem lcXdrbgDrngGenerate_spec (state : XdrbgDrngState) (alpha : List UInt8)
    (outlen : Nat) :
    lcXdrbgDrngGenerate xof P state alpha outlen =
      ({ state with
          v := fillBuffer state.v (fkeKey (xdrbgGenerateStream xof alpha) (lcXdrbgKeysize P state)
            (readBytes state.v 0 (lcXdrbgKeysize P state)) (fkeChunks state.chunksize outlen)) },
        fkeOutput (xdrbgGenerateStream xof alpha) (lcXdrbgKeysize P state) state.chunksize
          (readBytes state.v 0 (lcXdrbgKeysize P state)) outlen) := by
  rw [lcXdrbgDrngGenerate, fkeGenerateLoop_eq state.chunksize_pos,
    iterate_lcXdrbgDrngFkeInitCtx, fkeOutput]
  refine congrArg _ (List.flatMap_congr fun i _ => ?_)
  rw [iterate_lcXdrbgDrngFkeInitCtx, (lcXdrbgDrngFkeInitCtx_spec xof P _ alpha).2]
  simp only [lcXdrbgKeysize_mk, readBytes_fillBuffer _ (length_fkeKey _ (length_readBytes _ _ _) i)]

/-- `lc_xdrbg_drng_seed_nocheck` stores the first `k` bytes of the seed stream in `v` and
    sets the flag. -/
theorem lcXdrbgDrngSeedNocheck_spec (state : XdrbgDrngState) (seed alpha : List UInt8) :
    lcXdrbgDrngSeedNocheck xof P state seed alpha =
      { state with
        initiallySeeded := true
        v := fillBuffer state.v (readBytes (xdrbgSeedStream xof state.initiallySeeded
          (readBytes state.v 0 (lcXdrbgKeysize P state)) seed alpha) 0 (lcXdrbgKeysize P state)) } := by
  cases hs : state.initiallySeeded <;>
    simp [lcXdrbgDrngSeedNocheck, hs, xdrbgSeedStream, lcXdrbgDrngEncode,
      fkeEncode_eq lcHashUpdate_append, lcXdrbgXofFinal, lcHashFinal, lcHashSetDigestsize,
      lcHashUpdate, lcHashInit, lcXdrbgDrngEncodeN, Nat.mul_comm]

/-! ### Refinement -/

/-- **XDRBG refines Algorithm 2 of the XDRBG specification**: for every state, with `k` the
    key size its status carries and `V_0` the first `k` bytes of `v`,
    `lc_xdrbg_drng_generate` writes the bytes `[k, k + todo_i)` of
    `XOF(V_{i-1} ++ alpha' ++ [170 + |alpha'|])` chunk after chunk, `V_i` being bytes
    `[0, k)` of that stream, and leaves `V_N` in `v`; `lc_xdrbg_drng_seed_nocheck` stores the
    first `k` bytes of `XOF([V ++] seed ++ alpha' ++ [85 * s + |alpha'|])` and sets the
    flag; `lc_xdrbg_drng_zero` clears the flag and wipes the `k` key bytes. -/
theorem xdrbg_refines (state : XdrbgDrngState) (alpha seed : List UInt8) (outlen : Nat) :
    (lcXdrbgDrngGenerate xof P state alpha outlen).2 =
        fkeOutput (fun V => xof (V ++ alpha.take 84 ++
            [UInt8.ofNat (170 + (alpha.take 84).length)]))
          (lcXdrbgKeysize P state) state.chunksize
          (readBytes state.v 0 (lcXdrbgKeysize P state)) outlen ∧
      (lcXdrbgDrngGenerate xof P state alpha outlen).1 =
        { state with
          v := fillBuffer state.v (fkeKey (fun V => xof (V ++ alpha.take 84 ++
              [UInt8.ofNat (170 + (alpha.take 84).length)]))
            (lcXdrbgKeysize P state) (readBytes state.v 0 (lcXdrbgKeysize P state))
            (fkeChunks state.chunksize outlen)) } ∧
      lcXdrbgDrngSeedNocheck xof P state seed alpha =
        { state with
          initiallySeeded := true
          v := fillBuffer state.v (readBytes (xof
            ((if state.initiallySeeded then readBytes state.v 0 (lcXdrbgKeysize P state) else [])
              ++ seed ++ alpha.take 84 ++
              [UInt8.ofNat (85 * state.initiallySeeded.toNat + (alpha.take 84).length)]))
            0 (lcXdrbgKeysize P state)) } ∧
      lcXdrbgDrngZero P state =
        { state with
          initiallySeeded := false
          v := fillBuffer state.v (List.replicate (lcXdrbgKeysize P state) 0) } := by
  have hstream : (fun V => xof (V ++ alpha.take 84 ++
      [UInt8.ofNat (170 + (alpha.take 84).length)])) = xdrbgGenerateStream xof alpha := by
    funext V
    rw [xdrbgGenerateStream, fkeEncoded, List.append_assoc]
  rw [hstream, lcXdrbgDrngGenerate_spec, lcXdrbgDrngSeedNocheck_spec, xdrbgSeedStream,
    fkeEncoded, ← List.append_assoc]
  exact ⟨rfl, rfl, rfl, rfl⟩

/-- The DRBG's calls. -/
def lcXdrbgDrngCall (state : XdrbgDrngState) : DrngCall → XdrbgDrngState × List UInt8
  | .seed seed alpha => (lcXdrbgDrngSeedNocheck xof P state seed alpha, [])
  | .generate alpha outlen => lcXdrbgDrngGenerate xof P state alpha outlen
  | .zero => (lcXdrbgDrngZero P state, [])

/-- The calls keep the status key size and the chunk size. -/
theorem lcXdrbgDrngCall_keysize (state : XdrbgDrngState) (c : DrngCall) :
    (lcXdrbgDrngCall xof P state c).1.keysize = state.keysize ∧
      (lcXdrbgDrngCall xof P state c).1.chunksize = state.chunksize := by
  cases c with
  | seed seed alpha => simp [lcXdrbgDrngCall, lcXdrbgDrngSeedNocheck_spec]
  | generate alpha outlen => simp [lcXdrbgDrngCall, lcXdrbgDrngGenerate_spec]
  | zero => exact ⟨rfl, rfl⟩

/-- Each call is the design's step, for the key size and chunk size of the state. -/
theorem lcXdrbgDrngCall_step (state : XdrbgDrngState) (c : DrngCall) :
    ((lcXdrbgDrngCall xof P state c).1.toFke P, (lcXdrbgDrngCall xof P state c).2) =
      (xdrbgDesign xof (lcXdrbgKeysize P state) state.chunksize).step (state.toFke P) c := by
  cases c <;> simp [lcXdrbgDrngCall, lcXdrbgDrngSeedNocheck_spec, lcXdrbgDrngGenerate_spec,
    lcXdrbgDrngZero, XdrbgDrngState.toFke, FkeDesign.step, xdrbgDesign, readBytes_fillBuffer,
    length_fkeKey]

/-- **Over every run of calls**, XDRBG generates what Algorithm 2 generates, for the key size
    and chunk size of the state it starts from. -/
theorem xdrbgRun_refines (state : XdrbgDrngState) (cs : List DrngCall) :
    ((drngRun (lcXdrbgDrngCall xof P) state cs).1.toFke P,
        (drngRun (lcXdrbgDrngCall xof P) state cs).2) =
      (xdrbgDesign xof (lcXdrbgKeysize P state) state.chunksize).run (state.toFke P) cs := by
  refine drngRun_refines _ _ _
    (fun s => s.keysize = state.keysize ∧ s.chunksize = state.chunksize)
    (fun s c hs => ?_) (fun s c hs => ?_) state ⟨rfl, rfl⟩ cs
  · obtain ⟨h1, h2⟩ := lcXdrbgDrngCall_keysize xof P s c
    exact ⟨h1.trans hs.1, h2.trans hs.2⟩
  · rw [lcXdrbgDrngCall_step, ← hs.2]
    simp only [lcXdrbgKeysize, hs.1]

end Xof

end Leancrypto.Drng
