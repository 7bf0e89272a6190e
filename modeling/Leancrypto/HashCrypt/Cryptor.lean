import Leancrypto.Bytes

namespace Leancrypto.HashCrypt

/-!
# Hash AEAD — the cryptor and its operations

`lc_hash_aead` encrypts with a keystream drawn block by block from a DRBG and
authenticates AAD and ciphertext with HMAC (Encrypt-then-MAC).  Both primitives sit
behind `struct lc_rng_ctx` and `struct lc_hmac_ctx`; we take them as parameters with
the interface the cryptor uses:

* `Rng`, `Hmac` — a DRBG and an HMAC as deterministic machines on opaque states; the
  DRBG calls and `lc_hmac_init` may fail with an error code;
* `HcCryptor` — `struct lc_hc_cryptor`: DRBG state, HMAC state, keystream block and
  `keystream_ptr`;
* one definition per function of the `_lc_hash_aead` table, translated statement by
  statement.  A buffer the code writes is passed in with its initial contents and
  returned with its final ones; each data buffer holds `datalen` bytes.
-/

/-- `EINVAL`, as Linux numbers it. -/
def eInval : Int := 22

/-- `EBADMSG`, as Linux numbers it. -/
def eBadMsg : Int := 74

/-- `LC_SHA_MAX_SIZE_DIGEST`: the largest digest, and the length of the MAC key. -/
def lcShaMaxSizeDigest : Nat := 64

/-- The DRBG behind `hc->drbg`: `lc_rng_seed`, `lc_rng_generate` without additional
    input, and the state `lc_rng_zero` leaves.  A failing call returns its error code
    and changes nothing; a successful `generate` returns the bytes asked for. -/
structure Rng (σ : Type) where
  seed : σ → List UInt8 → List UInt8 → Except Int σ
  generate : σ → Nat → Except Int (σ × List UInt8)
  zero : σ
  length_generate : ∀ d n d' out, generate d n = .ok (d', out) → out.length = n

/-- The HMAC behind `hc->auth_ctx`: `lc_hmac_init` (which may fail), `lc_hmac_update`,
    `lc_hmac_final` (the `digestsize` tag bytes and the state it leaves), and the state
    of a wiped context.  Updates are incremental, as for every hash of the library. -/
structure Hmac (η : Type) where
  init : List UInt8 → Except Int η
  update : η → List UInt8 → η
  final : η → List UInt8 × η
  zero : η
  digestsize : Nat
  length_final : ∀ a, (final a).1.length = digestsize
  update_nil : ∀ a, update a [] = a
  update_append : ∀ a x y, update (update a x) y = update a (x ++ y)

/-- The primitives of one instance and `LC_HC_KEYSTREAM_BLOCK`, which is at least
    `LC_SHA_MAX_SIZE_DIGEST` (the `BUILD_BUG_ON` of `lc_hc_setkey_nocheck`). -/
structure HcParams (σ η : Type) where
  rng : Rng σ
  hmac : Hmac η
  keystreamBlock : Nat
  maxDigest_le : lcShaMaxSizeDigest ≤ keystreamBlock

/-- `struct lc_hc_cryptor`.  The keystream buffer is a byte array; bytes from
    `LC_HC_KEYSTREAM_BLOCK` on are never read. -/
structure HcCryptor (σ η : Type) where
  drbg : σ
  authCtx : η
  keystream : Nat → UInt8
  keystreamPtr : Nat

/-- `lc_memcmp_secure`: nonzero exactly when the strings differ. -/
def lcMemcmpSecure (a b : List UInt8) : Bool := a != b

variable {σ η : Type} (P : HcParams σ η)

/-! ### Keying and zeroisation -/

/-- `lc_hc_setkey_nocheck`: seed the DRBG with key and IV, draw the 64-byte MAC key into
    the keystream buffer, key the HMAC with it, draw the first keystream block.  `CKINT`
    leaves at the first failure with what was done so far in place. -/
def lcHcSetkeyNocheck (hc : HcCryptor σ η) (key iv : List UInt8) : HcCryptor σ η × Int :=
  if key = [] then (hc, -eInval) else
  match P.rng.seed hc.drbg key iv with
  | .error e => (hc, e)
  | .ok d =>
    let hc := { hc with drbg := d }
    match P.rng.generate hc.drbg lcShaMaxSizeDigest with
    | .error e => (hc, e)
    | .ok (d, macKey) =>
      let hc := { hc with drbg := d, keystream := fillBuffer hc.keystream macKey }
      match P.hmac.init macKey with
      | .error e => (hc, e)
      | .ok a =>
        let hc := { hc with authCtx := a }
        match P.rng.generate hc.drbg P.keystreamBlock with
        | .error e => (hc, e)
        | .ok (d, ks) =>
          ({ hc with drbg := d, keystream := fillBuffer hc.keystream ks, keystreamPtr := 0 }, 0)

/-- The instance `lc_hc_alloc` returns: all of its memory cleared. -/
def hcFresh : HcCryptor σ η := ⟨P.rng.zero, P.hmac.zero, fun _ => 0, 0⟩

/-- `lc_hc_zero`: zero the DRBG, the keystream and its pointer, and wipe the HMAC
    state. -/
def lcHcZero (hc : HcCryptor σ η) : HcCryptor σ η :=
  { hc with drbg := P.rng.zero, keystreamPtr := 0, keystream := fun _ => 0,
            authCtx := P.hmac.zero }

/-- Zeroisation leaves the instance as allocated, whatever came before. -/
@[simp] theorem lcHcZero_eq (hc : HcCryptor σ η) : lcHcZero P hc = hcFresh P := rfl

/-! ### The keystream loop -/

/-- The refresh at the top of the `lc_hc_crypt` loop: a new block once the current one
    is used up. -/
def keystreamRefresh (hc : HcCryptor σ η) : Except Int (HcCryptor σ η) :=
  if P.keystreamBlock ≤ hc.keystreamPtr then
    match P.rng.generate hc.drbg P.keystreamBlock with
    | .error e => .error e
    | .ok (d, ks) => .ok { hc with drbg := d, keystream := fillBuffer hc.keystream ks,
                                   keystreamPtr := 0 }
  else .ok hc

/-- After a successful refresh there is an unused keystream byte. -/
theorem keystreamRefresh_ptr_lt {hc hc' : HcCryptor σ η}
    (h : keystreamRefresh P hc = .ok hc') : hc'.keystreamPtr < P.keystreamBlock := by
  have := P.maxDigest_le
  unfold keystreamRefresh at h
  split_ifs at h with hle
  · split at h <;> cases h
    simp only [lcShaMaxSizeDigest] at this
    simp only
    omega
  · cases h
    omega

/-- A refresh is a no-op while the block has unused bytes. -/
theorem keystreamRefresh_of_lt {hc : HcCryptor σ η} (h : hc.keystreamPtr < P.keystreamBlock) :
    keystreamRefresh P hc = .ok hc := by
  simp [keystreamRefresh, Nat.not_le.mpr h]

/-- `lc_hc_crypt`: XOR `in` with the keystream into `out`, at most to the end of the
    current block per round, refreshing the block when it is used up.  A failed refresh
    returns at once, leaving the rest of `out` as it was. -/
def lcHcCrypt (hc : HcCryptor σ η) (inp out : List UInt8) : HcCryptor σ η × List UInt8 :=
  if _hin : inp = [] then (hc, out) else
  match _h : keystreamRefresh P hc with
  | .error _ => (hc, out)
  | .ok hc' =>
    let todo := min (min inp.length P.keystreamBlock) (P.keystreamBlock - hc'.keystreamPtr)
    let rest := lcHcCrypt { hc' with keystreamPtr := hc'.keystreamPtr + todo }
      (inp.drop todo) (out.drop todo)
    (rest.1, xorBytes (inp.take todo) (readBytes hc'.keystream hc'.keystreamPtr todo) ++ rest.2)
termination_by inp.length
decreasing_by
  have := keystreamRefresh_ptr_lt P _h
  have : inp.length ≠ 0 := by simpa using _hin
  simp only [List.length_drop]
  omega

@[simp] theorem lcHcCrypt_nil (hc : HcCryptor σ η) (out : List UInt8) :
    lcHcCrypt P hc [] out = (hc, out) := by
  rw [lcHcCrypt]; rfl

/-! ### The table's operations -/

/-- `lc_hc_add_aad` (`enc_init`, `dec_init`): feed the AAD to the HMAC. -/
def lcHcAddAad (hc : HcCryptor σ η) (aad : List UInt8) : HcCryptor σ η :=
  { hc with authCtx := P.hmac.update hc.authCtx aad }

/-- `lc_hc_encrypt` (`enc_update`): encrypt, then MAC the ciphertext buffer. -/
def lcHcEncrypt (hc : HcCryptor σ η) (plaintext ciphertext : List UInt8) :
    HcCryptor σ η × List UInt8 :=
  let c := lcHcCrypt P hc plaintext ciphertext
  ({ c.1 with authCtx := P.hmac.update c.1.authCtx c.2 }, c.2)

/-- `lc_hc_decrypt` (`dec_update`): MAC the ciphertext, then decrypt it. -/
def lcHcDecrypt (hc : HcCryptor σ η) (ciphertext plaintext : List UInt8) :
    HcCryptor σ η × List UInt8 :=
  lcHcCrypt P { hc with authCtx := P.hmac.update hc.authCtx ciphertext } ciphertext plaintext

/-- `lc_hc_encrypt_tag` (`enc_final`): nothing if the digest is longer than
    `LC_SHA_MAX_SIZE_DIGEST`; a tag shorter than the digest is cut from a temporary,
    otherwise `lc_hmac_final` writes the whole digest into the tag buffer. -/
def lcHcEncryptTag (hc : HcCryptor σ η) (tag : List UInt8) (taglen : Nat) :
    HcCryptor σ η × List UInt8 :=
  let digestsize := P.hmac.digestsize
  if lcShaMaxSizeDigest < digestsize then (hc, tag) else
  let mac := P.hmac.final hc.authCtx
  if taglen < digestsize then ({ hc with authCtx := mac.2 }, mac.1.take taglen ++ tag.drop taglen)
  else ({ hc with authCtx := mac.2 }, mac.1 ++ tag.drop digestsize)

/-- `lc_hc_decrypt_authenticate` (`dec_final`): reject tags longer than the local
    `calctag[LC_SHA_MAX_SIZE_DIGEST]`, compute the tag into `calctag` (whose initial,
    uninitialised contents are an argument) and compare `taglen` bytes. -/
def lcHcDecryptAuthenticate (hc : HcCryptor σ η) (tag : List UInt8) (taglen : Nat)
    (calctag : List UInt8) : HcCryptor σ η × Int :=
  if lcShaMaxSizeDigest < taglen then (hc, -eInval) else
  let c := lcHcEncryptTag P hc calctag taglen
  (c.1, if lcMemcmpSecure (c.2.take taglen) (tag.take taglen) then -eBadMsg else 0)

/-- `lc_hc_encrypt_oneshot`: AAD, encryption, tag; returns ciphertext and tag buffers. -/
def lcHcEncryptOneshot (hc : HcCryptor σ η) (plaintext ciphertext aad tag : List UInt8)
    (taglen : Nat) : HcCryptor σ η × List UInt8 × List UInt8 :=
  let e := lcHcEncrypt P (lcHcAddAad P hc aad) plaintext ciphertext
  let t := lcHcEncryptTag P e.1 tag taglen
  (t.1, e.2, t.2)

/-- `lc_hc_decrypt_oneshot`: AAD, decryption, then the tag check; returns the plaintext
    buffer and the verdict. -/
def lcHcDecryptOneshot (hc : HcCryptor σ η) (ciphertext plaintext aad tag : List UInt8)
    (taglen : Nat) (calctag : List UInt8) : HcCryptor σ η × List UInt8 × Int :=
  let d := lcHcDecrypt P (lcHcAddAad P hc aad) ciphertext plaintext
  let v := lcHcDecryptAuthenticate P d.1 tag taglen calctag
  (v.1, d.2, v.2)

/-! ### A concrete instance

Small instances of the two interfaces, to run the model on concrete inputs: a DRBG whose
state counts its `generate` calls and that fails from call `budget` on (never, for
`none`), and an HMAC whose state is the keyed message and whose tag repeats its byte
sum. -/

/-- A DRBG that fails from its `budget`-th `generate` call on. -/
def countingRng (budget : Option Nat) : Rng Nat where
  seed _ _ _ := .ok 0
  generate d n :=
    match budget with
    | some b => if d < b then .ok (d + 1, List.replicate n (UInt8.ofNat (d + 1))) else .error (-eInval)
    | none => .ok (d + 1, List.replicate n (UInt8.ofNat (d + 1)))
  zero := 0
  length_generate d n d' out h := by
    dsimp only at h
    split at h
    · split_ifs at h
      cases h
      simp
    · cases h
      simp

/-- An HMAC whose state is the key followed by the message. -/
def sumHmac : Hmac (List UInt8) where
  init key := .ok key
  update a x := a ++ x
  final a := (List.replicate 32 (a.foldl (· + ·) 0), a)
  zero := []
  digestsize := 32
  length_final _ := List.length_replicate _ _
  update_nil := List.append_nil
  update_append := List.append_assoc

/-- The instance with `LC_HC_KEYSTREAM_BLOCK = 64`. -/
def demoParams (budget : Option Nat) : HcParams Nat (List UInt8) :=
  ⟨countingRng budget, sumHmac, 64, le_refl _⟩

end Leancrypto.HashCrypt
