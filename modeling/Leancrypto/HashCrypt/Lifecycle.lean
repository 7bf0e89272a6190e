import Leancrypto.HashCrypt.RoundTrip

namespace Leancrypto.HashCrypt

/-!
# Hash AEAD — calls through the table, runs of them, and failed calls

`struct lc_aead` dispatches each call of the AEAD API to the function its table names;
`lcAeadStep` is that dispatch for `_lc_hash_aead`, and `lcAeadRun` a sequence of calls.
The cryptor keeps no record of being keyed or of a stream in progress: every call runs in
every state.  Nor does it undo anything: `lc_hc_setkey_nocheck` leaves what its failed
`CKINT` chain did in place, and `lc_hc_crypt` is `void`, so a failed keystream refresh
ends it early without anybody noticing.

* `lcAeadRun_ptr_le` — along every run, `keystream_ptr ≤ LC_HC_KEYSTREAM_BLOCK`;
* `lcAeadRun_append_zero` — `zero` forgets the whole history;
* `lcHcCrypt_hcFresh` — on a cleared instance the keystream block is all zero, so the
  first block of data passes through `lc_hc_crypt` unchanged;
* `hc_no_lifecycle` — **`setkey` is accepted after any run whenever its own DRBG and HMAC
  calls succeed, and `enc_update` after `zero` writes its plaintext**;
* `hc_error_effects` — **a failed `setkey` keeps `keystream_ptr` and the keystream past the
  MAC key; `enc_update` and `dec_update` report success however far the keystream got,
  leave the rest of the buffer as it was and `enc_update` MACs all of it**;
  `hc_errors_not_atomic` — a run where an in-place `enc_update` returns and MACs its
  plaintext.
-/

/-- A call through the `_lc_hash_aead` table, with its arguments and the initial contents
    of the buffers it writes (`calctag` is the local buffer of `dec_final`). -/
inductive HcCall
  | setkey (key iv : List UInt8)
  | encrypt (plaintext ciphertext aad tag : List UInt8) (taglen : Nat)
  | decrypt (ciphertext plaintext aad tag : List UInt8) (taglen : Nat) (calctag : List UInt8)
  | encInit (aad : List UInt8)
  | encUpdate (plaintext ciphertext : List UInt8)
  | encFinal (tag : List UInt8) (taglen : Nat)
  | decInit (aad : List UInt8)
  | decUpdate (ciphertext plaintext : List UInt8)
  | decFinal (tag : List UInt8) (taglen : Nat) (calctag : List UInt8)
  | zero

/-- What a call hands back: its return code (`0` for the `void` ones), the data buffer
    and the tag buffer it writes. -/
structure HcReturn where
  ret : Int
  data : List UInt8
  tag : List UInt8
  deriving DecidableEq, Repr

variable {σ η : Type} (P : HcParams σ η)

/-- One call through the table.  `setkey` is `lc_hc_setkey`, whose power-on self-test is
    taken as passed. -/
def lcAeadStep (hc : HcCryptor σ η) : HcCall → HcCryptor σ η × HcReturn
  | .setkey key iv => let r := lcHcSetkeyNocheck P hc key iv; (r.1, ⟨r.2, [], []⟩)
  | .encrypt pt ct aad tag taglen =>
    let r := lcHcEncryptOneshot P hc pt ct aad tag taglen; (r.1, ⟨0, r.2.1, r.2.2⟩)
  | .decrypt ct pt aad tag taglen calctag =>
    let r := lcHcDecryptOneshot P hc ct pt aad tag taglen calctag; (r.1, ⟨r.2.2, r.2.1, []⟩)
  | .encInit aad => (lcHcAddAad P hc aad, ⟨0, [], []⟩)
  | .encUpdate pt ct => let r := lcHcEncrypt P hc pt ct; (r.1, ⟨0, r.2, []⟩)
  | .encFinal tag taglen => let r := lcHcEncryptTag P hc tag taglen; (r.1, ⟨0, [], r.2⟩)
  | .decInit aad => (lcHcAddAad P hc aad, ⟨0, [], []⟩)
  | .decUpdate ct pt => let r := lcHcDecrypt P hc ct pt; (r.1, ⟨0, r.2, []⟩)
  | .decFinal tag taglen calctag =>
    let r := lcHcDecryptAuthenticate P hc tag taglen calctag; (r.1, ⟨r.2, [], []⟩)
  | .zero => (lcHcZero P hc, ⟨0, [], []⟩)

/-- A run of calls: the instance after them and what each call handed back. -/
def lcAeadRun (hc : HcCryptor σ η) : List HcCall → HcCryptor σ η × List HcReturn
  | [] => (hc, [])
  | c :: cs =>
    let s := lcAeadStep P hc c
    ((lcAeadRun s.1 cs).1, s.2 :: (lcAeadRun s.1 cs).2)

theorem lcAeadRun_append (hc : HcCryptor σ η) (cs cs' : List HcCall) :
    (lcAeadRun P hc (cs ++ cs')).1 = (lcAeadRun P (lcAeadRun P hc cs).1 cs').1 := by
  induction cs generalizing hc with
  | nil => rfl
  | cons c cs ih => exact ih _

/-- `zero` forgets the whole history: after it the instance is as allocated. -/
theorem lcAeadRun_append_zero (hc : HcCryptor σ η) (cs : List HcCall) :
    (lcAeadRun P hc (cs ++ [.zero])).1 = hcFresh P := by
  rw [lcAeadRun_append]
  rfl

/-! ### The keystream pointer stays inside the block -/

theorem nextKeystreamByte_ptr_le {hc : HcCryptor σ η} {p : HcCryptor σ η × UInt8}
    (hn : nextKeystreamByte P hc = some p) : p.1.keystreamPtr ≤ P.keystreamBlock := by
  unfold nextKeystreamByte at hn
  split at hn
  · cases hn
  · cases hn
    exact keystreamRefresh_ptr_lt P (by assumption)

theorem keystreamBytes_ptr_le (hc : HcCryptor σ η) (n : Nat)
    (h : hc.keystreamPtr ≤ P.keystreamBlock) :
    (keystreamBytes P hc n).1.keystreamPtr ≤ P.keystreamBlock := by
  induction n generalizing hc with
  | zero => exact h
  | succ n ih =>
    cases hn : nextKeystreamByte P hc with
    | none => simpa [keystreamBytes, hn] using h
    | some p => simpa [keystreamBytes, hn] using ih p.1 (nextKeystreamByte_ptr_le P hn)

theorem lcHcCrypt_ptr_le (hc : HcCryptor σ η) (inp out : List UInt8)
    (h : hc.keystreamPtr ≤ P.keystreamBlock) :
    (lcHcCrypt P hc inp out).1.keystreamPtr ≤ P.keystreamBlock := by
  rw [lcHcCrypt_eq]
  exact keystreamBytes_ptr_le P hc _ h

theorem lcHcSetkeyNocheck_ptr (hc : HcCryptor σ η) (key iv : List UInt8) :
    (lcHcSetkeyNocheck P hc key iv).1.keystreamPtr = hc.keystreamPtr ∨
      (lcHcSetkeyNocheck P hc key iv).1.keystreamPtr = 0 := by
  unfold lcHcSetkeyNocheck
  dsimp only
  split_ifs
  · exact .inl rfl
  · repeat' split
    all_goals first | exact .inl rfl | exact .inr rfl

@[simp] theorem lcHcEncryptTag_ptr (hc : HcCryptor σ η) (tag : List UInt8) (taglen : Nat) :
    (lcHcEncryptTag P hc tag taglen).1.keystreamPtr = hc.keystreamPtr := by
  unfold lcHcEncryptTag
  dsimp only
  split_ifs <;> rfl

@[simp] theorem lcHcDecryptAuthenticate_ptr (hc : HcCryptor σ η) (tag : List UInt8)
    (taglen : Nat) (calctag : List UInt8) :
    (lcHcDecryptAuthenticate P hc tag taglen calctag).1.keystreamPtr = hc.keystreamPtr := by
  unfold lcHcDecryptAuthenticate
  split_ifs <;> simp

/-- **Step**: every call keeps `keystream_ptr ≤ LC_HC_KEYSTREAM_BLOCK`. -/
theorem lcAeadStep_ptr_le (hc : HcCryptor σ η) (c : HcCall)
    (h : hc.keystreamPtr ≤ P.keystreamBlock) :
    (lcAeadStep P hc c).1.keystreamPtr ≤ P.keystreamBlock := by
  cases c with
  | setkey key iv =>
    rcases lcHcSetkeyNocheck_ptr P hc key iv with h' | h' <;> simp only [lcAeadStep, h'] <;> omega
  | encrypt => exact (lcHcEncryptTag_ptr P ..).trans_le (lcHcCrypt_ptr_le P _ _ _ (by exact h))
  | decrypt =>
    exact (lcHcDecryptAuthenticate_ptr P ..).trans_le (lcHcCrypt_ptr_le P _ _ _ (by exact h))
  | encUpdate | decUpdate => exact lcHcCrypt_ptr_le P _ _ _ (by exact h)
  | encInit | decInit | encFinal | decFinal => simpa [lcAeadStep, lcHcAddAad] using h
  | zero => exact Nat.zero_le _

/-- **Run**: from a state inside the block, every run stays inside it. -/
theorem lcAeadRun_ptr_le (hc : HcCryptor σ η) (cs : List HcCall)
    (h : hc.keystreamPtr ≤ P.keystreamBlock) :
    (lcAeadRun P hc cs).1.keystreamPtr ≤ P.keystreamBlock := by
  induction cs generalizing hc with
  | nil => exact h
  | cons c cs ih => exact ih _ (lcAeadStep_ptr_le P hc c h)

/-- A fresh instance, keyed, encrypting three bytes. -/
theorem lcAeadRun_ptr_le_demo :
    (lcAeadRun (demoParams none) (hcFresh (demoParams none))
        [.setkey [1] [], .encUpdate [1, 2, 3] [0, 0, 0]]).1.keystreamPtr ≤
      (demoParams none).keystreamBlock :=
  lcAeadRun_ptr_le _ _ _ (by decide)

/-! ### No lifecycle -/

/-- On a cleared instance the keystream block is all zero: the first block of data passes
    through `lc_hc_crypt` unchanged. -/
theorem lcHcCrypt_hcFresh (m o : List UInt8) (ho : o.length = m.length) :
    m.take P.keystreamBlock <+: (lcHcCrypt P (hcFresh P) m o).2 := by
  have hsplit := lcHcCrypt_append P (hcFresh P) (m.take P.keystreamBlock)
    (m.drop P.keystreamBlock) (o.take P.keystreamBlock) (o.drop P.keystreamBlock) (by simp [ho])
  rw [List.take_append_drop, List.take_append_drop] at hsplit
  have hfirst : (lcHcCrypt P (hcFresh P) (m.take P.keystreamBlock)
      (o.take P.keystreamBlock)).2 = m.take P.keystreamBlock := by
    rw [lcHcCrypt_eq, keystreamBytes_of_le P _ _ (by simp [hcFresh, min_le_left])]
    simp only [hcFresh, readBytes_const, xorBytes_replicate_zero, List.length_replicate]
    simp [ho]
  rw [hsplit, hfirst]
  exact List.prefix_append _ _

/-- `setkey` succeeds from every instance state when its own DRBG and HMAC calls do. -/
theorem lcHcSetkeyNocheck_ret_of_ok (hc : HcCryptor σ η) {key iv macKey ks : List UInt8}
    {d₁ d₂ d₃ : σ} {a : η} (hkey : key ≠ []) (h₁ : P.rng.seed hc.drbg key iv = .ok d₁)
    (h₂ : P.rng.generate d₁ lcShaMaxSizeDigest = .ok (d₂, macKey))
    (h₃ : P.hmac.init macKey = .ok a) (h₄ : P.rng.generate d₂ P.keystreamBlock = .ok (d₃, ks)) :
    (lcHcSetkeyNocheck P hc key iv).2 = 0 := by
  simp [lcHcSetkeyNocheck, hkey, h₁, h₂, h₃, h₄]

/-- **No lifecycle.** After every run of calls, `setkey` with a nonempty key is accepted
    whenever its own DRBG and HMAC calls succeed, also between `enc_init`/`enc_update` and
    `enc_final`; and after every run ending in `zero`, whatever the DRBG and the HMAC,
    `enc_update` writes the first `LC_HC_KEYSTREAM_BLOCK` bytes of its plaintext unchanged
    as ciphertext, XORed with the zeroed keystream. -/
theorem hc_no_lifecycle (hc : HcCryptor σ η) (cs : List HcCall) :
    (∀ key iv d₁ d₂ d₃ macKey ks a, key ≠ [] →
      P.rng.seed (lcAeadRun P hc cs).1.drbg key iv = .ok d₁ →
      P.rng.generate d₁ lcShaMaxSizeDigest = .ok (d₂, macKey) →
      P.hmac.init macKey = .ok a →
      P.rng.generate d₂ P.keystreamBlock = .ok (d₃, ks) →
      (lcAeadStep P (lcAeadRun P hc cs).1 (.setkey key iv)).2.ret = 0) ∧
    ∀ m o, o.length = m.length →
      m.take P.keystreamBlock <+:
        (lcAeadStep P (lcAeadRun P hc (cs ++ [.zero])).1 (.encUpdate m o)).2.data :=
  ⟨fun _ _ _ _ _ _ _ _ hkey h₁ h₂ h₃ h₄ => lcHcSetkeyNocheck_ret_of_ok P _ hkey h₁ h₂ h₃ h₄,
    fun m o ho => by rw [lcAeadRun_append_zero]; exact lcHcCrypt_hcFresh P m o ho⟩

/-- Mid-stream: `setkey` after `enc_init`, and `enc_update` after `zero`. -/
theorem hc_no_lifecycle_demo :
    (lcAeadStep (demoParams none) (lcAeadRun (demoParams none) (hcFresh (demoParams none))
      [.encInit [5]]).1 (.setkey [1] [])).2.ret = 0 ∧
    [1, 2, 3].take 64 <+: (lcAeadStep (demoParams none)
      (lcAeadRun (demoParams none) (hcFresh (demoParams none)) ([.encInit [5]] ++ [.zero])).1
        (.encUpdate [1, 2, 3] [0, 0, 0])).2.data :=
  ⟨(hc_no_lifecycle (demoParams none) _ [.encInit [5]]).1 [1] [] _ _ _ _ _ _ (by decide) rfl rfl
    rfl rfl, (hc_no_lifecycle (demoParams none) _ [.encInit [5]]).2 [1, 2, 3] [0, 0, 0] rfl⟩

/-- A zeroed instance encrypts `[1, 2, 3]` to `[1, 2, 3]`: `enc_update` neither fails
    nor withholds its output. -/
theorem hc_zeroed_encrypts_to_plaintext :
    (lcAeadRun (demoParams none) (hcFresh (demoParams none))
      [.zero, .encUpdate [1, 2, 3] [0, 0, 0]]).2 = [⟨0, [], []⟩, ⟨0, [1, 2, 3], []⟩] := by
  have hp := lcHcCrypt_hcFresh (demoParams none) [1, 2, 3] [0, 0, 0] rfl
  have hl := length_lcHcCrypt (demoParams none) (hcFresh (demoParams none)) [1, 2, 3] [0, 0, 0]
    (le_refl _)
  have heq := hp.eq_of_length (by rw [hl]; rfl)
  simp only [lcAeadRun, lcAeadStep, lcHcEncrypt, lcHcZero_eq]
  rw [← heq]
  rfl

/-! ### What a failed call leaves behind -/

/-- **No rollback, bounded damage**: when `lc_hc_setkey_nocheck` fails, `keystream_ptr`
    and the keystream bytes from `LC_SHA_MAX_SIZE_DIGEST` on are as before the call. -/
theorem lcHcSetkeyNocheck_error_frame (hc : HcCryptor σ η) (key iv : List UInt8)
    (h : (lcHcSetkeyNocheck P hc key iv).2 ≠ 0) :
    (lcHcSetkeyNocheck P hc key iv).1.keystreamPtr = hc.keystreamPtr ∧
      ∀ i, lcShaMaxSizeDigest ≤ i →
        (lcHcSetkeyNocheck P hc key iv).1.keystream i = hc.keystream i := by
  revert h
  unfold lcHcSetkeyNocheck
  dsimp only
  split_ifs
  · exact fun _ => ⟨rfl, fun _ _ => rfl⟩
  split
  · exact fun _ => ⟨rfl, fun _ _ => rfl⟩
  split
  · exact fun _ => ⟨rfl, fun _ _ => rfl⟩
  rename_i macKey hmk
  have hlen := P.rng.length_generate _ _ _ _ hmk
  have hfill : ∀ i, lcShaMaxSizeDigest ≤ i → fillBuffer hc.keystream macKey i = hc.keystream i :=
    fun i hi => fillBuffer_of_le _ _ (hlen.trans_le hi)
  split
  · exact fun _ => ⟨rfl, hfill⟩
  split
  · exact fun _ => ⟨rfl, hfill⟩
  · exact fun h => absurd rfl h

/-- `enc_update` in keystream terms: the buffer becomes the plaintext XOR the keystream bytes
    obtained, then its own old bytes from where the keystream stopped; the HMAC takes all of
    it. -/
theorem lcHcEncrypt_eq (hc : HcCryptor σ η) (m o : List UInt8) :
    lcHcEncrypt P hc m o =
      ({ (keystreamBytes P hc m.length).1 with
          authCtx := P.hmac.update hc.authCtx (xorBytes m (keystreamBytes P hc m.length).2 ++
            o.drop (keystreamBytes P hc m.length).2.length) },
        xorBytes m (keystreamBytes P hc m.length).2 ++
          o.drop (keystreamBytes P hc m.length).2.length) := by
  simp [lcHcEncrypt, lcHcCrypt_eq]

/-- `dec_update` writes the same buffer: the HMAC state does not reach the keystream. -/
theorem lcHcDecrypt_snd (hc : HcCryptor σ η) (c o : List UInt8) :
    (lcHcDecrypt P hc c o).2 =
      xorBytes c (keystreamBytes P hc c.length).2 ++ o.drop (keystreamBytes P hc c.length).2.length := by
  rw [lcHcDecrypt, lcHcCrypt_authCtx, lcHcCrypt_eq]

/-- **What failures leave.**  A failed `lc_hc_setkey_nocheck` keeps `keystream_ptr` and the
    keystream bytes from `LC_SHA_MAX_SIZE_DIGEST` on, but nothing else is rolled back.  And
    `enc_update` and `dec_update` return 0 whether or not a keystream refresh fails: their
    buffer holds the input XOR the keystream bytes obtained (`ks`, short of the input exactly
    when a refresh failed), then its own old bytes, which for `in == out` are the input
    itself; `enc_update` feeds that whole buffer to the HMAC. -/
theorem hc_error_effects (hc : HcCryptor σ η) :
    (∀ key iv, (lcHcSetkeyNocheck P hc key iv).2 ≠ 0 →
      (lcHcSetkeyNocheck P hc key iv).1.keystreamPtr = hc.keystreamPtr ∧
        ∀ i, lcShaMaxSizeDigest ≤ i →
          (lcHcSetkeyNocheck P hc key iv).1.keystream i = hc.keystream i) ∧
    ∀ m o, let ks := (keystreamBytes P hc m.length).2
      (lcAeadStep P hc (.encUpdate m o)).2 = ⟨0, xorBytes m ks ++ o.drop ks.length, []⟩ ∧
        (lcAeadStep P hc (.encUpdate m o)).1.authCtx =
          P.hmac.update hc.authCtx (xorBytes m ks ++ o.drop ks.length) ∧
        (lcAeadStep P hc (.decUpdate m o)).2 = ⟨0, xorBytes m ks ++ o.drop ks.length, []⟩ :=
  ⟨lcHcSetkeyNocheck_error_frame P hc, fun m o => by
    simp [lcAeadStep, lcHcEncrypt_eq, lcHcDecrypt_snd]⟩

/-- A `setkey` whose keystream `generate` fails, and an in-place `enc_update` on an instance
    whose block is used up and whose DRBG fails. -/
theorem hc_error_effects_demo :
    ((lcHcSetkeyNocheck (demoParams (some 1)) (hcFresh (demoParams (some 1))) [1] []).1.keystreamPtr
        = (hcFresh (demoParams (some 1))).keystreamPtr ∧
      ∀ i, lcShaMaxSizeDigest ≤ i →
        (lcHcSetkeyNocheck (demoParams (some 1)) (hcFresh (demoParams (some 1))) [1] []).1.keystream i
          = (hcFresh (demoParams (some 1))).keystream i) ∧
    (lcAeadStep (demoParams (some 0)) ⟨0, [], fun _ => 0, 64⟩ (.encUpdate [1, 2, 3] [1, 2, 3])).2 =
      ⟨0, xorBytes [1, 2, 3] (keystreamBytes (demoParams (some 0)) ⟨0, [], fun _ => 0, 64⟩ 3).2 ++
        [1, 2, 3].drop (keystreamBytes (demoParams (some 0)) ⟨0, [], fun _ => 0, 64⟩ 3).2.length, []⟩ :=
  ⟨(hc_error_effects _ _).1 [1] [] (by decide), ((hc_error_effects _ _).2 [1, 2, 3] [1, 2, 3]).1⟩

/-- **Neither failure is contained.**  With a DRBG that fails on its second `generate`,
    `setkey` on a fresh instance fails after reseeding the DRBG and keying the HMAC: the
    instance is neither as before nor fresh.  With a DRBG good for two `generate` calls, the
    run `setkey`, `enc_update` of one block, in-place `enc_update` of `[1, 2, 3]` reports 0
    for the last call although its refresh failed: the ciphertext it hands back is the
    plaintext, and the HMAC absorbs it as ciphertext. -/
theorem hc_errors_not_atomic :
    ((lcHcSetkeyNocheck (demoParams (some 1)) (hcFresh (demoParams (some 1))) [1] []).2 = -eInval ∧
      (lcHcSetkeyNocheck (demoParams (some 1)) (hcFresh (demoParams (some 1))) [1] []).1.drbg ≠
        (hcFresh (demoParams (some 1))).drbg) ∧
    (lcAeadRun (demoParams (some 2)) (hcFresh (demoParams (some 2)))
        [.setkey [1] [], .encUpdate (List.replicate 64 0) (List.replicate 64 0),
          .encUpdate [1, 2, 3] [1, 2, 3]]).2 =
      [⟨0, [], []⟩, ⟨0, List.replicate 64 2, []⟩, ⟨0, [1, 2, 3], []⟩] ∧
    (lcAeadRun (demoParams (some 2)) (hcFresh (demoParams (some 2)))
        [.setkey [1] [], .encUpdate (List.replicate 64 0) (List.replicate 64 0),
          .encUpdate [1, 2, 3] [1, 2, 3]]).1.authCtx =
      List.replicate 64 1 ++ List.replicate 64 2 ++ [1, 2, 3] := by
  refine ⟨by decide, ?_⟩
  simp only [lcAeadRun, lcAeadStep, lcHcEncrypt_eq]
  decide

end Leancrypto.HashCrypt
