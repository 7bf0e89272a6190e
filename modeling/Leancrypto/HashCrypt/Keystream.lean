import Leancrypto.HashCrypt.Cryptor

namespace Leancrypto.HashCrypt

/-!
# Hash AEAD — the keystream as one sequence

`lc_hc_crypt` consumes the keystream in rounds that end at block boundaries or at the
end of the data.  We describe it instead byte by byte: `keystreamBytes hc n` is the
sequence of the next `n` keystream bytes of an instance (shorter when a refresh fails)
and the instance after them.

* `keystreamBytes_add` — `m + n` bytes are `m` bytes followed by `n` more from where
  they leave off: the keystream is one sequence, however it is consumed;
* `lcHcCrypt_eq` — **the loop refines the byte-wise semantics**: its output is the input
  XOR the next keystream bytes, and the untouched rest of the output buffer;
* `lcHcCrypt_append` — two `lc_hc_crypt` calls on consecutive pieces are one call on
  their concatenation.
-/

variable {σ η : Type} (P : HcParams σ η)

/-- The next keystream byte and the instance after it: refresh if the block is used
    up, then read `keystream[keystream_ptr]`. -/
def nextKeystreamByte (hc : HcCryptor σ η) : Option (HcCryptor σ η × UInt8) :=
  match keystreamRefresh P hc with
  | .error _ => none
  | .ok hc => some ({ hc with keystreamPtr := hc.keystreamPtr + 1 }, hc.keystream hc.keystreamPtr)

/-- The next `n` keystream bytes, fewer if a refresh fails, and the instance after them. -/
def keystreamBytes (hc : HcCryptor σ η) : Nat → HcCryptor σ η × List UInt8
  | 0 => (hc, [])
  | n + 1 =>
    match nextKeystreamByte P hc with
    | none => (hc, [])
    | some (hc', k) => ((keystreamBytes hc' n).1, k :: (keystreamBytes hc' n).2)

@[simp] theorem keystreamBytes_zero (hc : HcCryptor σ η) : keystreamBytes P hc 0 = (hc, []) :=
  rfl

theorem length_keystreamBytes_le (hc : HcCryptor σ η) (n : Nat) :
    (keystreamBytes P hc n).2.length ≤ n := by
  induction n generalizing hc with
  | zero => simp
  | succ n ih =>
    simp only [keystreamBytes]
    split
    · simp
    · simpa using ih _

/-- Once a refresh fails the instance is stuck: no further keystream byte comes. -/
theorem keystreamBytes_of_none {hc : HcCryptor σ η} (h : nextKeystreamByte P hc = none)
    (n : Nat) : keystreamBytes P hc n = (hc, []) := by
  cases n <;> simp [keystreamBytes, h]

/-- **One sequence**: the next `m + n` keystream bytes are the next `m`, then the next
    `n` from the instance those leave. -/
theorem keystreamBytes_add (hc : HcCryptor σ η) (m n : Nat) :
    keystreamBytes P hc (m + n) =
      ((keystreamBytes P (keystreamBytes P hc m).1 n).1,
        (keystreamBytes P hc m).2 ++ (keystreamBytes P (keystreamBytes P hc m).1 n).2) := by
  induction m generalizing hc with
  | zero => simp
  | succ m ih =>
    rw [Nat.add_right_comm]
    cases h : nextKeystreamByte P hc with
    | none => simp [keystreamBytes, h, keystreamBytes_of_none P h]
    | some p => simp [keystreamBytes, h, ih]

/-- A run that delivered fewer bytes than asked for ended stuck. -/
theorem keystreamBytes_stuck (hc : HcCryptor σ η) (m : Nat)
    (h : (keystreamBytes P hc m).2.length < m) (n : Nat) :
    keystreamBytes P (keystreamBytes P hc m).1 n = ((keystreamBytes P hc m).1, []) := by
  induction m generalizing hc with
  | zero => simp at h
  | succ m ih =>
    cases hn : nextKeystreamByte P hc with
    | none => simp [keystreamBytes, hn, keystreamBytes_of_none P hn]
    | some p =>
      simp only [keystreamBytes, hn, List.length_cons] at h ⊢
      exact ih p.1 (by omega)

/-- Inside a block the keystream is read straight from the buffer. -/
theorem keystreamBytes_of_le (hc : HcCryptor σ η) (m : Nat)
    (h : hc.keystreamPtr + m ≤ P.keystreamBlock) :
    keystreamBytes P hc m =
      ({ hc with keystreamPtr := hc.keystreamPtr + m },
        readBytes hc.keystream hc.keystreamPtr m) := by
  induction m generalizing hc with
  | zero => rfl
  | succ m ih =>
    have hnext : nextKeystreamByte P hc =
        some ({ hc with keystreamPtr := hc.keystreamPtr + 1 }, hc.keystream hc.keystreamPtr) := by
      simp [nextKeystreamByte, keystreamRefresh_of_lt P (show hc.keystreamPtr < _ by omega)]
    have hrest := ih { hc with keystreamPtr := hc.keystreamPtr + 1 } (by dsimp only; omega)
    simp only [keystreamBytes, hnext, hrest, readBytes_succ, Nat.add_assoc, Nat.add_comm 1 m]

/-- The refresh done at the top of a round is the one the first byte would do. -/
theorem keystreamBytes_of_refresh {hc hc' : HcCryptor σ η}
    (h : keystreamRefresh P hc = .ok hc') (n : Nat) :
    keystreamBytes P hc (n + 1) = keystreamBytes P hc' (n + 1) := by
  simp [keystreamBytes, nextKeystreamByte, h,
    keystreamRefresh_of_lt P (keystreamRefresh_ptr_lt P h)]

/-- The first byte fails exactly when the refresh does. -/
theorem nextKeystreamByte_of_error {hc : HcCryptor σ η} {e : Int}
    (h : keystreamRefresh P hc = .error e) : nextKeystreamByte P hc = none := by
  simp [nextKeystreamByte, h]

/-- One round of the loop in keystream terms: after the refresh, `t` bytes up to the end
    of the block come from the buffer, the rest from where they leave off. -/
theorem keystreamBytes_round {hc hc' : HcCryptor σ η} (h : keystreamRefresh P hc = .ok hc')
    {t N : Nat} (ht : hc'.keystreamPtr + t ≤ P.keystreamBlock) (htN : t ≤ N) (hN : 0 < N) :
    keystreamBytes P hc N =
      ((keystreamBytes P { hc' with keystreamPtr := hc'.keystreamPtr + t } (N - t)).1,
        readBytes hc'.keystream hc'.keystreamPtr t ++
          (keystreamBytes P { hc' with keystreamPtr := hc'.keystreamPtr + t } (N - t)).2) := by
  obtain ⟨n, hn⟩ : ∃ n, N = n + 1 := ⟨N - 1, by omega⟩
  rw [hn, keystreamBytes_of_refresh P h, ← hn, ← Nat.add_sub_cancel' htN, keystreamBytes_add,
    keystreamBytes_of_le P _ _ ht, Nat.add_sub_cancel_left]

/-- **Refinement**: `lc_hc_crypt` writes the input XOR the next keystream bytes, and
    leaves the rest of the output buffer (after a failed refresh) as it was. -/
theorem lcHcCrypt_eq (hc : HcCryptor σ η) (inp out : List UInt8) :
    lcHcCrypt P hc inp out =
      ((keystreamBytes P hc inp.length).1,
        xorBytes inp (keystreamBytes P hc inp.length).2 ++
          out.drop (keystreamBytes P hc inp.length).2.length) := by
  induction hc, inp, out using lcHcCrypt.induct P with
  | case1 hc out => simp
  | case2 hc inp out hin e h =>
    obtain ⟨x, xs, rfl⟩ := List.exists_cons_of_ne_nil hin
    rw [lcHcCrypt, dif_neg hin]
    split
    · simp [keystreamBytes_of_none P (nextKeystreamByte_of_error P h)]
    · simp_all
  | case3 hc inp out hin hc' h todo ih =>
    simp only [todo] at ih
    rw [lcHcCrypt, dif_neg hin]
    split
    · simp_all
    · rename_i hc'' h'
      obtain rfl : hc'' = hc' := by rw [h] at h'; cases h'; rfl
      set t := min (min inp.length P.keystreamBlock) (P.keystreamBlock - hc''.keystreamPtr)
      have hlen : inp.length ≠ 0 := by simpa using hin
      have hptr := keystreamRefresh_ptr_lt P h
      have hsplit := xorBytes_append_append (inp.take t) (inp.drop t)
        (readBytes hc''.keystream hc''.keystreamPtr t)
        (keystreamBytes P { hc'' with keystreamPtr := hc''.keystreamPtr + t } (inp.length - t)).2
        (by simp; omega)
      rw [List.take_append_drop] at hsplit
      dsimp only
      rw [ih, List.length_drop, keystreamBytes_round P h (t := t) (by omega) (by omega) (by omega),
        hsplit]
      simp [Nat.add_comm]

/-- `lc_hc_crypt` writes exactly its buffer. -/
theorem length_lcHcCrypt (hc : HcCryptor σ η) (inp out : List UInt8)
    (h : inp.length ≤ out.length) : (lcHcCrypt P hc inp out).2.length = out.length := by
  have := length_keystreamBytes_le P hc inp.length
  simp only [lcHcCrypt_eq, List.length_append, length_xorBytes, List.length_drop]
  omega

/-! ### Framing: the keystream never reads the HMAC state -/

theorem keystreamRefresh_authCtx (hc : HcCryptor σ η) (a : η) :
    keystreamRefresh P { hc with authCtx := a } =
      (keystreamRefresh P hc).map fun hc => { hc with authCtx := a } := by
  unfold keystreamRefresh
  split_ifs
  · cases P.rng.generate hc.drbg P.keystreamBlock <;> rfl
  · rfl

theorem nextKeystreamByte_authCtx (hc : HcCryptor σ η) (a : η) :
    nextKeystreamByte P { hc with authCtx := a } =
      (nextKeystreamByte P hc).map fun p => ({ p.1 with authCtx := a }, p.2) := by
  unfold nextKeystreamByte
  rw [keystreamRefresh_authCtx]
  cases keystreamRefresh P hc <;> rfl

theorem keystreamBytes_authCtx (hc : HcCryptor σ η) (a : η) (n : Nat) :
    keystreamBytes P { hc with authCtx := a } n =
      ({ (keystreamBytes P hc n).1 with authCtx := a }, (keystreamBytes P hc n).2) := by
  induction n generalizing hc with
  | zero => rfl
  | succ n ih =>
    simp only [keystreamBytes, nextKeystreamByte_authCtx]
    cases nextKeystreamByte P hc with
    | none => rfl
    | some p => simp [ih]

@[simp] theorem authCtx_keystreamBytes (hc : HcCryptor σ η) (n : Nat) :
    (keystreamBytes P hc n).1.authCtx = hc.authCtx := by
  calc (keystreamBytes P hc n).1.authCtx
      = (keystreamBytes P { hc with authCtx := hc.authCtx } n).1.authCtx := rfl
    _ = hc.authCtx := by rw [keystreamBytes_authCtx]

@[simp] theorem authCtx_lcHcCrypt (hc : HcCryptor σ η) (inp out : List UInt8) :
    (lcHcCrypt P hc inp out).1.authCtx = hc.authCtx := by
  simp [lcHcCrypt_eq]

/-- `lc_hc_crypt` leaves the HMAC state alone and does not depend on it. -/
theorem lcHcCrypt_authCtx (hc : HcCryptor σ η) (a : η) (inp out : List UInt8) :
    lcHcCrypt P { hc with authCtx := a } inp out =
      ({ (lcHcCrypt P hc inp out).1 with authCtx := a }, (lcHcCrypt P hc inp out).2) := by
  simp [lcHcCrypt_eq, keystreamBytes_authCtx]

/-! ### Chunking -/

/-- **Chunking**: `lc_hc_crypt` on two consecutive pieces, each with its output buffer,
    is `lc_hc_crypt` on their concatenation. -/
theorem lcHcCrypt_append (hc : HcCryptor σ η) (a b oa ob : List UInt8)
    (hoa : oa.length = a.length) :
    lcHcCrypt P hc (a ++ b) (oa ++ ob) =
      ((lcHcCrypt P (lcHcCrypt P hc a oa).1 b ob).1,
        (lcHcCrypt P hc a oa).2 ++ (lcHcCrypt P (lcHcCrypt P hc a oa).1 b ob).2) := by
  simp only [lcHcCrypt_eq, List.length_append, keystreamBytes_add]
  have hle := length_keystreamBytes_le P hc a.length
  rcases Nat.lt_or_ge (keystreamBytes P hc a.length).2.length a.length with hlt | hge
  · rw [keystreamBytes_stuck P hc a.length hlt]
    have hdrop : (oa ++ ob).drop (keystreamBytes P hc a.length).2.length =
        oa.drop (keystreamBytes P hc a.length).2.length ++ ob :=
      List.drop_append_of_le_length (by omega)
    simp [xorBytes_append_of_le _ _ _ hle, hdrop]
  · have heq : (keystreamBytes P hc a.length).2.length = a.length := by omega
    rw [xorBytes_append _ _ _ (by simp [heq]), xorBytes_append_right _ _ _ (by simp [heq]),
      List.drop_left' heq]
    have hdrop : ∀ k, (oa ++ ob).drop (a.length + k) = ob.drop k := fun k => by
      rw [← hoa, List.drop_append]
    simp only [heq, hdrop, List.drop_eq_nil_of_le hoa.le, List.nil_append, List.append_assoc]

end Leancrypto.HashCrypt
