import Leancrypto.Drng.Fke

namespace Leancrypto.Drng

/-!
# KMAC-DRNG — `kmac_drng.c`

The state is a 512-bit KMAC key and the `initially_seeded` flag.  Seeding absorbs the seed
and the encoded personalisation string under the customization string "KMAC-DRNG seed"
and stores the first 64 output bytes as the new key; generation runs the shared
fast-key-erasure loop with chunks of `LC_KMAC256_DRNG_MAX_CHUNK - 64` bytes under
"KMAC-DRNG generate".

* `KmacCtx`, `lcKmacInit`, `lcKmacUpdate`, `lcKmacFinalXof` — the KMACXOF256 context, over
  its output stream `kmacXof K X S`;
* `lcKmac256DrngEncode`, `lcKmac256DrngFkeInitCtx`, `lcKmac256DrngGenerate`,
  `lcKmac256DrngSeedNocheck`, `lcKmac256DrngZero` — the DRNG;
* `lcKmac256DrngGenerate_spec`, `lcKmac256DrngSeedNocheck_spec` — one spec lemma each;
* `kmacDrng_refines` — **KMAC-DRNG refines the documented construction**, call by call;
* `kmacDrngRun_refines` — and over every run of calls.
-/

/-- `LC_KMAC256_DRNG_KEYSIZE`: the 512-bit key the spec fixes. -/
def lcKmac256DrngKeysize : Nat := 64

/-- `LC_KMAC256_DRNG_MAX_CHUNK`, from `lc_kmac256_drng.h`, which is not part of the sources:
    the bytes one KMAC instance squeezes per chunk, more than the key. -/
structure KmacDrngParams where
  maxChunk : Nat
  keysize_lt : lcKmac256DrngKeysize < maxChunk

/-- `LC_KMAC_DRNG_SEED_CUSTOMIZATION_STRING`. -/
def lcKmacDrngSeedCustomizationString : List UInt8 := "KMAC-DRNG seed".toUTF8.toList

/-- `LC_KMAC_DRNG_CTX_CUSTOMIZATION_STRING`. -/
def lcKmacDrngCtxCustomizationString : List UInt8 := "KMAC-DRNG generate".toUTF8.toList

/-! ### The KMAC context -/

/-- Modelled from the spec: a KMACXOF256 context, keyed with `key` under the customization
    string `cust`, with the input absorbed so far and the number of output bytes already
    squeezed.  Its output is one stream; each `lc_kmac_final_xof` continues it. -/
structure KmacCtx where
  key : List UInt8
  cust : List UInt8
  msg : List UInt8
  squeezed : Nat

/-- Modelled from the spec: `lc_kmac_init` — cSHAKE-256 with the KMAC key prefix; it does
    not fail on a context of the caller's stack. -/
def lcKmacInit (key cust : List UInt8) : KmacCtx := ⟨key, cust, [], 0⟩

/-- Modelled from the spec: `lc_kmac_update` absorbs `d`. -/
def lcKmacUpdate (ctx : KmacCtx) (d : List UInt8) : KmacCtx := { ctx with msg := ctx.msg ++ d }

theorem lcKmacUpdate_append (ctx : KmacCtx) (a b : List UInt8) :
    lcKmacUpdate (lcKmacUpdate ctx a) b = lcKmacUpdate ctx (a ++ b) := by
  simp [lcKmacUpdate]

section Kmac

/- KMACXOF256 as a stream: byte `j` of `KMACXOF256(K, X, L, S)` for any `L > j`. -/
variable (kmacXof : List UInt8 → List UInt8 → List UInt8 → Nat → UInt8)

/-- Modelled from the spec: `lc_kmac_final_xof` squeezes the next `n` bytes. -/
def lcKmacFinalXof (ctx : KmacCtx) (n : Nat) : KmacCtx × List UInt8 :=
  ({ ctx with squeezed := ctx.squeezed + n }, readBytes (kmacXof ctx.key ctx.msg ctx.cust) ctx.squeezed n)

@[simp] theorem length_lcKmacFinalXof (ctx : KmacCtx) (n : Nat) :
    (lcKmacFinalXof kmacXof ctx n).2.length = n := by
  simp [lcKmacFinalXof]

/-! ### The DRNG -/

/-- `struct lc_kmac256_drng_state`: the key, always `LC_KMAC256_DRNG_KEYSIZE` bytes, and
    the `initially_seeded` flag. -/
structure KmacDrngState where
  key : List UInt8
  key_length : key.length = lcKmac256DrngKeysize
  initiallySeeded : Bool

/-- `lc_kmac256_drng_encode`: the encoding byte is `n * 85 + alphalen`. -/
def lcKmac256DrngEncode (ctx : KmacCtx) (n : Nat) (alpha : List UInt8) : KmacCtx :=
  fkeEncode lcKmacUpdate ctx (n * 85) alpha

/-- `lc_kmac256_drng_fke_init_ctx`: key KMAC with the stored key under "KMAC-DRNG
    generate", absorb the encoded additional input and overwrite the key with the first 64
    output bytes; the context, ready to squeeze the rest, goes back to the caller. -/
def lcKmac256DrngFkeInitCtx (state : KmacDrngState) (addtlInput : List UInt8) :
    KmacDrngState × KmacCtx :=
  let ctx := lcKmacInit state.key lcKmacDrngCtxCustomizationString
  let ctx := lcKmac256DrngEncode ctx 2 addtlInput
  let r := lcKmacFinalXof kmacXof ctx lcKmac256DrngKeysize
  ({ state with key := r.2, key_length := length_lcKmacFinalXof kmacXof _ _ }, r.1)

/-- `lc_kmac256_drng_generate`: the fast-key-erasure loop in chunks of
    `LC_KMAC256_DRNG_MAX_CHUNK - LC_KMAC256_DRNG_KEYSIZE` bytes. -/
def lcKmac256DrngGenerate (P : KmacDrngParams) (state : KmacDrngState)
    (addtlInput : List UInt8) (outlen : Nat) : KmacDrngState × List UInt8 :=
  fkeGenerateLoop (fun s => lcKmac256DrngFkeInitCtx kmacXof s addtlInput)
    (lcKmacFinalXof kmacXof) (P.maxChunk - lcKmac256DrngKeysize)
    (Nat.sub_pos_of_lt P.keysize_lt) state outlen

/-- `lc_kmac256_drng_seed_nocheck`: on reseeding KMAC is keyed with the stored key, on the
    first seeding with the empty key (and the flag is set); then the seed and the
    personalisation string encoded with the prior flag are absorbed and the first 64 output
    bytes replace the key. -/
def lcKmac256DrngSeedNocheck (state : KmacDrngState) (seed persbuf : List UInt8) :
    KmacDrngState :=
  let initiallySeeded := state.initiallySeeded
  let (ctx, state) :=
    if initiallySeeded then (lcKmacInit state.key lcKmacDrngSeedCustomizationString, state)
    else (lcKmacInit [] lcKmacDrngSeedCustomizationString, { state with initiallySeeded := true })
  let ctx := lcKmacUpdate ctx seed
  let ctx := lcKmac256DrngEncode ctx initiallySeeded.toNat persbuf
  { state with
    key := (lcKmacFinalXof kmacXof ctx lcKmac256DrngKeysize).2
    key_length := length_lcKmacFinalXof kmacXof _ _ }

/-- `lc_kmac256_drng_zero`: the whole state is wiped. -/
def lcKmac256DrngZero (_state : KmacDrngState) : KmacDrngState :=
  ⟨List.replicate lcKmac256DrngKeysize 0, List.length_replicate _ _, false⟩

/-! ### The documented construction -/

/-- The stream of one generate chunk: KMACXOF256 keyed with `K`, input
    `alpha' ++ [170 + |alpha'|]`, customization "KMAC-DRNG generate". -/
def kmacDrngGenerateStream (alpha K : List UInt8) : Nat → UInt8 :=
  kmacXof K (fkeEncoded 170 alpha) lcKmacDrngCtxCustomizationString

/-- The stream of seeding with prior flag `s`: KMACXOF256 keyed with `K` (the empty key on
    the first seeding), input `seed ++ pers' ++ [85 * s + |pers'|]`, customization
    "KMAC-DRNG seed". -/
def kmacDrngSeedStream (s : Bool) (K seed pers : List UInt8) : Nat → UInt8 :=
  kmacXof (if s then K else []) (seed ++ fkeEncoded (85 * s.toNat) pers)
    lcKmacDrngSeedCustomizationString

/-- KMAC-DRNG as a fast-key-erasure design. -/
def kmacDrngDesign (P : KmacDrngParams) : FkeDesign :=
  ⟨lcKmac256DrngKeysize, P.maxChunk - lcKmac256DrngKeysize, kmacDrngGenerateStream kmacXof,
    kmacDrngSeedStream kmacXof⟩

/-- The design's view of a state. -/
def KmacDrngState.toFke (state : KmacDrngState) : FkeState :=
  ⟨state.key, state.initiallySeeded⟩

/-! ### Spec lemmas -/

/-- `fke_init_ctx` stores bytes `[0, 64)` of the chunk's stream, and leaves the context
    after them. -/
theorem lcKmac256DrngFkeInitCtx_spec (state : KmacDrngState) (alpha : List UInt8) :
    (lcKmac256DrngFkeInitCtx kmacXof state alpha).1.key =
        readBytes (kmacDrngGenerateStream kmacXof alpha state.key) 0 lcKmac256DrngKeysize ∧
      (lcKmac256DrngFkeInitCtx kmacXof state alpha).1.initiallySeeded = state.initiallySeeded ∧
      ∀ n, (lcKmacFinalXof kmacXof (lcKmac256DrngFkeInitCtx kmacXof state alpha).2 n).2 =
        readBytes (kmacDrngGenerateStream kmacXof alpha state.key) lcKmac256DrngKeysize n := by
  simp [lcKmac256DrngFkeInitCtx, lcKmac256DrngEncode, fkeEncode_eq lcKmacUpdate_append,
    lcKmacFinalXof, lcKmacUpdate, lcKmacInit, kmacDrngGenerateStream]

/-- `lc_kmac256_drng_generate` writes the documented output and stores the last key of the
    chain. -/
theorem lcKmac256DrngGenerate_spec (P : KmacDrngParams) (state : KmacDrngState)
    (alpha : List UInt8) (outlen : Nat) :
    ((lcKmac256DrngGenerate kmacXof P state alpha outlen).1.toFke,
        (lcKmac256DrngGenerate kmacXof P state alpha outlen).2) =
      (kmacDrngDesign kmacXof P).step state.toFke (.generate alpha outlen) := by
  have hchunk := Nat.sub_pos_of_lt P.keysize_lt
  have hkey := fun s => (lcKmac256DrngFkeInitCtx_spec kmacXof s alpha).1
  have hflag : ∀ i, ((fun s => (lcKmac256DrngFkeInitCtx kmacXof s alpha).1)^[i] state).initiallySeeded
      = state.initiallySeeded := by
    intro i
    induction i with
    | zero => rfl
    | succ i ih => rw [Function.iterate_succ_apply', (lcKmac256DrngFkeInitCtx_spec _ _ _).2.1, ih]
  simp only [lcKmac256DrngGenerate, FkeDesign.step, kmacDrngDesign, KmacDrngState.toFke]
  rw [fkeGenerateLoop_snd_eq_fkeOutput hchunk KmacDrngState.key _ _ hkey
      (fun s => (lcKmac256DrngFkeInitCtx_spec kmacXof s alpha).2.2),
    fkeGenerateLoop_eq hchunk, key_iterate_fkeInitCtx KmacDrngState.key _ _ hkey, hflag]

/-- `lc_kmac256_drng_seed_nocheck` stores the first 64 bytes of the seed stream and sets the
    flag. -/
theorem lcKmac256DrngSeedNocheck_spec (P : KmacDrngParams) (state : KmacDrngState)
    (seed pers : List UInt8) :
    ((lcKmac256DrngSeedNocheck kmacXof state seed pers).toFke, []) =
      (kmacDrngDesign kmacXof P).step state.toFke (.seed seed pers) := by
  cases hs : state.initiallySeeded <;>
    simp [lcKmac256DrngSeedNocheck, hs, FkeDesign.step, kmacDrngDesign, KmacDrngState.toFke,
      kmacDrngSeedStream, lcKmac256DrngEncode, fkeEncode_eq lcKmacUpdate_append, lcKmacFinalXof,
      lcKmacUpdate, lcKmacInit]

/-- `lc_kmac256_drng_zero` is the design's `zero`. -/
theorem lcKmac256DrngZero_spec (P : KmacDrngParams) (state : KmacDrngState) :
    ((lcKmac256DrngZero state).toFke, []) = (kmacDrngDesign kmacXof P).step state.toFke .zero :=
  rfl

/-! ### Refinement -/

/-- **KMAC-DRNG refines its documented fast-key-erasure construction**: for every state,
    additional input and length, `lc_kmac256_drng_generate` writes `R_1 ++ … ++ R_N` and
    stores `K_N`, where `N = ⌈outlen / B⌉`, `B = LC_KMAC256_DRNG_MAX_CHUNK - 64`, and `K_i`,
    `R_i` are bytes `[0, 64)` and `[64, 64 + |R_i|)` of the KMACXOF256 stream keyed with
    `K_{i-1}`; and `lc_kmac256_drng_seed_nocheck` stores the first 64 bytes of the seed
    stream and sets `initially_seeded`. -/
theorem kmacDrng_refines (P : KmacDrngParams) (state : KmacDrngState)
    (alpha seed pers : List UInt8) (outlen : Nat) :
    (lcKmac256DrngGenerate kmacXof P state alpha outlen).2 =
        fkeOutput (kmacDrngGenerateStream kmacXof alpha) 64 (P.maxChunk - 64) state.key outlen ∧
      (lcKmac256DrngGenerate kmacXof P state alpha outlen).1.key =
        fkeKey (kmacDrngGenerateStream kmacXof alpha) 64 state.key
          (fkeChunks (P.maxChunk - 64) outlen) ∧
      (lcKmac256DrngSeedNocheck kmacXof state seed pers).key =
        readBytes (kmacXof (if state.initiallySeeded then state.key else [])
          (seed ++ pers.take 84 ++
            [UInt8.ofNat (85 * state.initiallySeeded.toNat + (pers.take 84).length)])
          lcKmacDrngSeedCustomizationString) 0 64 ∧
      (lcKmac256DrngSeedNocheck kmacXof state seed pers).initiallySeeded = true := by
  have hgen := lcKmac256DrngGenerate_spec kmacXof P state alpha outlen
  have hseed := lcKmac256DrngSeedNocheck_spec kmacXof P state seed pers
  simp only [FkeDesign.step, kmacDrngDesign, KmacDrngState.toFke, Prod.mk.injEq,
    FkeState.mk.injEq] at hgen hseed
  refine ⟨hgen.2, hgen.1.1, ?_, hseed.1.2⟩
  rw [hseed.1.1, kmacDrngSeedStream, fkeEncoded, List.append_assoc]
  rfl

/-- The DRNG's calls. -/
def lcKmac256DrngCall (P : KmacDrngParams) (state : KmacDrngState) :
    DrngCall → KmacDrngState × List UInt8
  | .seed seed pers => (lcKmac256DrngSeedNocheck kmacXof state seed pers, [])
  | .generate alpha outlen => lcKmac256DrngGenerate kmacXof P state alpha outlen
  | .zero => (lcKmac256DrngZero state, [])

end Kmac

end Leancrypto.Drng
