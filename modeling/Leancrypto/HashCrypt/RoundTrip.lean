import Leancrypto.HashCrypt.Keystream

namespace Leancrypto.HashCrypt

/-!
# Hash AEAD — streaming against one-shot, the round trip, and long tags

The table serves the streaming interface with the same functions the one-shot calls
are built from (`enc_init = dec_init = lc_hc_add_aad`, `enc_update = lc_hc_encrypt`,
`dec_update = lc_hc_decrypt`, `enc_final = lc_hc_encrypt_tag`,
`dec_final = lc_hc_decrypt_authenticate`).  Splitting the data only splits the keystream
(`lcHcCrypt_append`) and the HMAC input (incremental updates).  Decryption recomputes the
keystream and the tag encryption produced, so a round trip succeeds as long as the DRBG
does not fail and the tag is no longer than the digest.  `lc_hc_decrypt_authenticate`
however accepts any `taglen` up to the size of its local `calctag` buffer,
`LC_SHA_MAX_SIZE_DIGEST`, while `lc_hc_encrypt_tag` writes only `digestsize` bytes.

* `lcHcEncrypt_append`, `lcHcDecrypt_append`, `encUpdates_eq`, `decUpdates_eq` — one update
  on a concatenation is updates on the pieces;
* `hc_stream_eq_oneshot` — **the streamed runs give the one-shot outputs**;
* `lcHcDecryptOneshot_encryptOneshot` — **the round trip returns the plaintext** for tags no
  longer than the digest;
* `hcRoundTrip_long_tag` — for a longer tag the comparison reads bytes no call computed, on
  both sides, and the round trip fails.
-/

variable {σ η : Type} (P : HcParams σ η)

/-! ### Streaming and one-shot agree -/

/-- `enc_update` on each data piece in turn, each with its ciphertext buffer: the
    instance after them and the ciphertext pieces. -/
def encUpdates (hc : HcCryptor σ η) :
    List (List UInt8 × List UInt8) → HcCryptor σ η × List (List UInt8)
  | [] => (hc, [])
  | (m, o) :: ms =>
    let e := lcHcEncrypt P hc m o
    ((encUpdates e.1 ms).1, e.2 :: (encUpdates e.1 ms).2)

/-- `dec_update` on each ciphertext piece in turn, each with its plaintext buffer. -/
def decUpdates (hc : HcCryptor σ η) :
    List (List UInt8 × List UInt8) → HcCryptor σ η × List (List UInt8)
  | [] => (hc, [])
  | (c, o) :: cs =>
    let d := lcHcDecrypt P hc c o
    ((decUpdates d.1 cs).1, d.2 :: (decUpdates d.1 cs).2)

/-- `enc_update` on two consecutive pieces is `enc_update` on their concatenation. -/
theorem lcHcEncrypt_append (hc : HcCryptor σ η) (a b oa ob : List UInt8)
    (hoa : oa.length = a.length) :
    lcHcEncrypt P hc (a ++ b) (oa ++ ob) =
      ((lcHcEncrypt P (lcHcEncrypt P hc a oa).1 b ob).1,
        (lcHcEncrypt P hc a oa).2 ++ (lcHcEncrypt P (lcHcEncrypt P hc a oa).1 b ob).2) := by
  simp [lcHcEncrypt, lcHcCrypt_append P hc a b oa ob hoa, lcHcCrypt_authCtx,
    P.hmac.update_append]

/-- `dec_update` on two consecutive pieces is `dec_update` on their concatenation. -/
theorem lcHcDecrypt_append (hc : HcCryptor σ η) (a b oa ob : List UInt8)
    (hoa : oa.length = a.length) :
    lcHcDecrypt P hc (a ++ b) (oa ++ ob) =
      ((lcHcDecrypt P (lcHcDecrypt P hc a oa).1 b ob).1,
        (lcHcDecrypt P hc a oa).2 ++ (lcHcDecrypt P (lcHcDecrypt P hc a oa).1 b ob).2) := by
  simp [lcHcDecrypt, lcHcCrypt_append P _ a b oa ob hoa, lcHcCrypt_authCtx,
    P.hmac.update_append]

theorem encUpdates_eq (hc : HcCryptor σ η) (ms : List (List UInt8 × List UInt8))
    (hms : ∀ p ∈ ms, p.2.length = p.1.length) :
    ((encUpdates P hc ms).1, (encUpdates P hc ms).2.flatten) =
      lcHcEncrypt P hc (ms.map Prod.fst).flatten (ms.map Prod.snd).flatten := by
  induction ms generalizing hc with
  | nil => simp [encUpdates, lcHcEncrypt, P.hmac.update_nil]
  | cons p ms ih =>
    obtain ⟨m, o⟩ := p
    have hrest := ih (lcHcEncrypt P hc m o).1 fun q hq => hms q (List.mem_cons_of_mem _ hq)
    simp only [Prod.ext_iff] at hrest
    simp [encUpdates, lcHcEncrypt_append P hc m _ o _ (hms (m, o) (List.mem_cons_self _ _)),
      ← hrest.1, ← hrest.2]

theorem decUpdates_eq (hc : HcCryptor σ η) (cs : List (List UInt8 × List UInt8))
    (hcs : ∀ p ∈ cs, p.2.length = p.1.length) :
    ((decUpdates P hc cs).1, (decUpdates P hc cs).2.flatten) =
      lcHcDecrypt P hc (cs.map Prod.fst).flatten (cs.map Prod.snd).flatten := by
  induction cs generalizing hc with
  | nil => simp [decUpdates, lcHcDecrypt, P.hmac.update_nil]
  | cons p cs ih =>
    obtain ⟨c, o⟩ := p
    have hrest := ih (lcHcDecrypt P hc c o).1 fun q hq => hcs q (List.mem_cons_of_mem _ hq)
    simp only [Prod.ext_iff] at hrest
    simp [decUpdates, lcHcDecrypt_append P hc c _ o _ (hcs (c, o) (List.mem_cons_self _ _)),
      ← hrest.1, ← hrest.2]

/-- AAD pieces fed one by one are the concatenated AAD fed at once. -/
theorem foldl_lcHcAddAad (hc : HcCryptor σ η) (aads : List (List UInt8)) :
    aads.foldl (lcHcAddAad P) hc = lcHcAddAad P hc aads.flatten := by
  induction aads generalizing hc with
  | nil => simp [lcHcAddAad, P.hmac.update_nil]
  | cons a aads ih => simp [ih, lcHcAddAad, P.hmac.update_append]

/-- **Streaming and one-shot agree**: after `setkey`, the AAD pieces through `enc_init`,
    the data pieces through `enc_update` and `enc_final` give the instance, the
    concatenated ciphertext and the tag of `lc_hc_encrypt_oneshot` on the concatenations;
    `dec_init`, `dec_update`, `dec_final` likewise give the instance, the plaintext and
    the verdict of `lc_hc_decrypt_oneshot`.  Each output buffer has its piece's length. -/
theorem hc_stream_eq_oneshot (hc : HcCryptor σ η) (key iv : List UInt8)
    (aads : List (List UInt8)) (ms cs : List (List UInt8 × List UInt8))
    (hms : ∀ p ∈ ms, p.2.length = p.1.length) (hcs : ∀ p ∈ cs, p.2.length = p.1.length)
    (tagBuf tag calctag : List UInt8) (taglen : Nat) :
    let hk := (lcHcSetkeyNocheck P hc key iv).1
    (let e := encUpdates P (aads.foldl (lcHcAddAad P) hk) ms
     let t := lcHcEncryptTag P e.1 tagBuf taglen
     (t.1, e.2.flatten, t.2) =
       lcHcEncryptOneshot P hk (ms.map Prod.fst).flatten (ms.map Prod.snd).flatten
         aads.flatten tagBuf taglen) ∧
    (let d := decUpdates P (aads.foldl (lcHcAddAad P) hk) cs
     let v := lcHcDecryptAuthenticate P d.1 tag taglen calctag
     (v.1, d.2.flatten, v.2) =
       lcHcDecryptOneshot P hk (cs.map Prod.fst).flatten (cs.map Prod.snd).flatten
         aads.flatten tag taglen calctag) := by
  intro hk
  rw [foldl_lcHcAddAad]
  have he := encUpdates_eq P (lcHcAddAad P hk aads.flatten) ms hms
  have hd := decUpdates_eq P (lcHcAddAad P hk aads.flatten) cs hcs
  simp only [Prod.ext_iff] at he hd
  exact ⟨by simp [lcHcEncryptOneshot, ← he.1, ← he.2], by simp [lcHcDecryptOneshot, ← hd.1, ← hd.2]⟩

/-- The law on two AAD pieces and the data split 2 + 1, from a fresh instance. -/
theorem hc_stream_eq_oneshot_demo :
    let P := demoParams none
    let hk := (lcHcSetkeyNocheck P (hcFresh P) [1] []).1
    (let e := encUpdates P ([[1], [2]].foldl (lcHcAddAad P) hk) [([1, 2], [0, 0]), ([3], [0])]
     let t := lcHcEncryptTag P e.1 [] 0
     (t.1, e.2.flatten, t.2) = lcHcEncryptOneshot P hk [1, 2, 3] [0, 0, 0] [1, 2] [] 0) ∧
    (let d := decUpdates P ([[1], [2]].foldl (lcHcAddAad P) hk) [([4], [0])]
     let v := lcHcDecryptAuthenticate P d.1 [] 0 []
     (v.1, d.2.flatten, v.2) = lcHcDecryptOneshot P hk [4] [0] [1, 2] [] 0 []) :=
  hc_stream_eq_oneshot (demoParams none) (hcFresh _) [1] [] [[1], [2]] [([1, 2], [0, 0]), ([3], [0])]
    [([4], [0])] (by decide) (by decide) [] [] [] 0

/-! ### Round trip -/

/-- The round trip of the API: `setkey`, one-shot encryption, `zero`, `setkey` with the
    same key and IV, one-shot decryption of the ciphertext and tag; the plaintext buffer
    and the verdict.  `calctag` is the initial content of the decryption's local
    buffer. -/
def hcRoundTrip (hc : HcCryptor σ η) (key iv aad pt ctBuf tagBuf ptBuf calctag : List UInt8)
    (taglen : Nat) : List UInt8 × Int :=
  let e := lcHcEncryptOneshot P (lcHcSetkeyNocheck P hc key iv).1 pt ctBuf aad tagBuf taglen
  let hk := (lcHcSetkeyNocheck P (lcHcZero P e.1) key iv).1
  (lcHcDecryptOneshot P hk e.2.1 ptBuf aad e.2.2 taglen calctag).2

section Total

variable {P} (hgen : ∀ d n, ∃ r, P.rng.generate d n = .ok r)
include hgen

/-- A DRBG that never fails delivers every keystream byte asked for. -/
theorem length_keystreamBytes (hc : HcCryptor σ η) (n : Nat) :
    (keystreamBytes P hc n).2.length = n := by
  induction n generalizing hc with
  | zero => rfl
  | succ n ih =>
    obtain ⟨p, hp⟩ : ∃ p, nextKeystreamByte P hc = some p := by
      unfold nextKeystreamByte keystreamRefresh
      split_ifs
      · obtain ⟨⟨d, ks⟩, h⟩ := hgen hc.drbg P.keystreamBlock
        simp [h]
      · simp
    simp [keystreamBytes, hp, ih]

/-- With such a DRBG, `lc_hc_crypt` fills its whole buffer. -/
theorem lcHcCrypt_snd_of_total (hc : HcCryptor σ η) (inp out : List UInt8)
    (hout : out.length = inp.length) :
    (lcHcCrypt P hc inp out).2 = xorBytes inp (keystreamBytes P hc inp.length).2 := by
  simp [lcHcCrypt_eq, length_keystreamBytes hgen, List.drop_eq_nil_of_le hout.le]

end Total

/-- The first `taglen` bytes of a tag no longer than the digest are the MAC's. -/
theorem take_lcHcEncryptTag (hc : HcCryptor σ η) (buf : List UInt8) {taglen : Nat}
    (hdig : P.hmac.digestsize ≤ lcShaMaxSizeDigest) (htag : taglen ≤ P.hmac.digestsize) :
    (lcHcEncryptTag P hc buf taglen).2.take taglen =
      (P.hmac.final hc.authCtx).1.take taglen := by
  have hlen := P.hmac.length_final hc.authCtx
  unfold lcHcEncryptTag
  rw [if_neg (Nat.not_lt.mpr hdig)]
  split_ifs with hlt
  · exact List.take_left' (by simp; omega)
  · rw [List.take_append_of_le_length (by omega)]

/-- **Round trip** from one instance state: decrypting what encryption produced gives the
    plaintext back and accepts the tag, when the DRBG does not fail, the digest fits
    `LC_SHA_MAX_SIZE_DIGEST` and the tag is no longer than the digest. -/
theorem lcHcDecryptOneshot_encryptOneshot (hc : HcCryptor σ η)
    (aad pt ctBuf tagBuf ptBuf calctag : List UInt8) (taglen : Nat)
    (hgen : ∀ d n, ∃ r, P.rng.generate d n = .ok r)
    (hdig : P.hmac.digestsize ≤ lcShaMaxSizeDigest) (htag : taglen ≤ P.hmac.digestsize)
    (hct : ctBuf.length = pt.length) (hpt : ptBuf.length = pt.length) :
    let e := lcHcEncryptOneshot P hc pt ctBuf aad tagBuf taglen
    (lcHcDecryptOneshot P hc e.2.1 ptBuf aad e.2.2 taglen calctag).2 = (pt, 0) := by
  intro e
  set hc₁ := lcHcAddAad P hc aad
  set K := (keystreamBytes P hc₁ pt.length).2
  have hK : K.length = pt.length := length_keystreamBytes hgen _ _
  have hct' : e.2.1 = xorBytes pt K := lcHcCrypt_snd_of_total hgen _ _ _ hct
  have hctlen : e.2.1.length = pt.length := by simp [hct', hK]
  have hauth : (lcHcEncrypt P hc₁ pt ctBuf).1.authCtx = P.hmac.update hc₁.authCtx e.2.1 := by
    simp [lcHcEncrypt, lcHcEncryptOneshot, e, hc₁]
  have hdec : lcHcDecrypt P hc₁ e.2.1 ptBuf =
      ({ (lcHcCrypt P hc₁ e.2.1 ptBuf).1 with authCtx := P.hmac.update hc₁.authCtx e.2.1 },
        pt) := by
    rw [lcHcDecrypt, lcHcCrypt_authCtx, lcHcCrypt_snd_of_total hgen _ _ _ (hpt.trans hctlen.symm),
      hctlen, hct', xorBytes_cancel _ _ hK.ge]
  have htags : (lcHcEncryptTag P (lcHcDecrypt P hc₁ e.2.1 ptBuf).1 calctag taglen).2.take taglen
      = e.2.2.take taglen := by
    rw [take_lcHcEncryptTag P _ _ hdig htag, hdec]
    exact (take_lcHcEncryptTag P _ _ hdig htag).trans (by rw [hauth]) |>.symm
  have hlen : ¬lcShaMaxSizeDigest < taglen := by omega
  show ((lcHcDecrypt P hc₁ e.2.1 ptBuf).2,
    (lcHcDecryptAuthenticate P (lcHcDecrypt P hc₁ e.2.1 ptBuf).1 e.2.2 taglen calctag).2) = (pt, 0)
  simp only [lcHcDecryptAuthenticate, if_neg hlen, lcMemcmpSecure, htags, bne_self_eq_false]
  simp [hdec]

/-! ### Tags longer than the digest -/

/-- A tag longer than the digest: the whole digest, then the buffer's own bytes. -/
theorem lcHcEncryptTag_long (hc : HcCryptor σ η) (buf : List UInt8) {taglen : Nat}
    (hlong : P.hmac.digestsize < taglen) (hmax : taglen ≤ lcShaMaxSizeDigest) :
    (lcHcEncryptTag P hc buf taglen).2 =
      (P.hmac.final hc.authCtx).1 ++ buf.drop P.hmac.digestsize := by
  simp [lcHcEncryptTag, show ¬lcShaMaxSizeDigest < P.hmac.digestsize by omega,
    show ¬taglen < P.hmac.digestsize by omega]

/-- Two tags of the form `mac ++ x` compare equal on `taglen ≥ |mac|` bytes only if they
    agree on bytes `[|mac|, taglen)`. -/
theorem take_append_ne {mac mac' x x' : List UInt8} {taglen : Nat}
    (hlen : mac'.length = mac.length) (hle : mac.length ≤ taglen)
    (hx : x.take (taglen - mac.length) ≠ x'.take (taglen - mac.length)) :
    (mac' ++ x').take taglen ≠ (mac ++ x).take taglen := by
  rw [List.take_append_eq_append_take, List.take_append_eq_append_take,
    List.take_of_length_le hle, List.take_of_length_le (hlen ▸ hle), hlen]
  intro h
  exact hx (List.append_inj h hlen).2.symm

/-- `dec_final` with a tag longer than the digest: the received tag `mac ++ rest` is
    rejected whenever `rest` and the uninitialised `calctag` differ before `taglen`. -/
theorem lcHcDecryptAuthenticate_long (hc : HcCryptor σ η) (mac rest calctag : List UInt8)
    {taglen : Nat} (hlong : P.hmac.digestsize < taglen) (hmax : taglen ≤ lcShaMaxSizeDigest)
    (hmac : mac.length = P.hmac.digestsize)
    (hdiff : rest.take (taglen - P.hmac.digestsize) ≠
      (calctag.drop P.hmac.digestsize).take (taglen - P.hmac.digestsize)) :
    (lcHcDecryptAuthenticate P hc (mac ++ rest) taglen calctag).2 = -eBadMsg := by
  have hne : ((P.hmac.final hc.authCtx).1 ++ calctag.drop P.hmac.digestsize).take taglen ≠
      (mac ++ rest).take taglen :=
    take_append_ne ((P.hmac.length_final _).trans hmac.symm) (by omega) (by rwa [hmac])
  simp [lcHcDecryptAuthenticate, Nat.not_lt.mpr hmax, lcHcEncryptTag_long P _ _ hlong hmax,
    lcMemcmpSecure, hne]

/-- **A tag longer than the digest is rejected** whenever the caller's tag buffer and the
    uninitialised `calctag` differ in the bytes past the digest: neither
    `lc_hc_encrypt_tag` call writes them, yet `lc_hc_decrypt_authenticate` compares
    them.  This holds for every instance state, key and DRBG behaviour. -/
theorem hcRoundTrip_long_tag (hc : HcCryptor σ η)
    (key iv aad pt ctBuf tagBuf ptBuf calctag : List UInt8) (taglen : Nat)
    (hlong : P.hmac.digestsize < taglen) (hmax : taglen ≤ lcShaMaxSizeDigest)
    (hdiff : (tagBuf.drop P.hmac.digestsize).take (taglen - P.hmac.digestsize) ≠
      (calctag.drop P.hmac.digestsize).take (taglen - P.hmac.digestsize)) :
    (hcRoundTrip P hc key iv aad pt ctBuf tagBuf ptBuf calctag taglen).2 = -eBadMsg := by
  simp only [hcRoundTrip, lcHcDecryptOneshot, lcHcEncryptOneshot, lcHcEncryptTag_long P _ _ hlong hmax]
  exact lcHcDecryptAuthenticate_long P _ _ _ _ hlong hmax (P.hmac.length_final _) hdiff

/-- SHA-256's 32-byte digest with a 48-byte tag: a zeroed tag buffer and a `calctag`
    holding `0xff` bytes make the round trip fail. -/
theorem hcRoundTrip_long_tag_sha256 :
    (hcRoundTrip (demoParams none) (hcFresh (demoParams none)) [1] [] [] [1, 2, 3] [0, 0, 0]
      (List.replicate 48 0) [0, 0, 0] (List.replicate 64 0xff) 48).2 = -eBadMsg :=
  hcRoundTrip_long_tag _ _ _ _ _ _ _ _ _ _ 48 (by decide) (by decide) (by decide)

end Leancrypto.HashCrypt
