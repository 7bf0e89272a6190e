import Mathlib
import Leancrypto.Bytes

namespace Leancrypto.Dilithium

/-!
# ML-DSA — the hint section of a signature

The last `OMEGA + K` bytes of an ML-DSA signature carry the hint vector `h`: the positions
of the set coefficients of all `K` hint polynomials one after the other, zero padding up
to `OMEGA`, and in byte `OMEGA + i` the number of positions in polynomials `0 .. i`.  The
AVX2 signer writes this section in `lc_dilithium_sign_avx2_internal` from the positions
`poly_make_hint_avx` leaves in `hintbuf`; the AVX2 verifier reads it back in
`lc_dilithium_verify_avx2_internal`, rejecting every section that is not canonical.

* `packHint`, `unpackHint` — the two loops, over the hint section as a byte array;
* `Encodes` — the layout both agree on;
* `hint_encoding_canonical` — **the encoding is a bijection between hint vectors of
  weight at most `OMEGA` and the sections the verifier accepts**.
-/

/-- `LC_DILITHIUM_K` and `LC_DILITHIUM_OMEGA`; the running count is stored in a byte. -/
structure HintParams where
  k : Nat
  omega : Nat
  omega_lt : omega < 256

variable (p : HintParams)

/-- `memcpy(&buf[pos], src, |src|)`. -/
def writeBytes (buf : Nat → UInt8) (pos : Nat) (src : List UInt8) : Nat → UInt8 :=
  fun j => if pos ≤ j ∧ j < pos + src.length then src.getD (j - pos) 0 else buf j

/-- The packing loop over the hint polynomials from running count `pos` and polynomial
    `i`: reject (`goto rej`) if the positions would pass `OMEGA`, else copy them to the
    running count and store the new count in `hint[OMEGA + i]`. -/
def packHintLoop (hint : Nat → UInt8) (pos i : Nat) : List (List UInt8) → Option (Nat → UInt8)
  | [] => some hint
  | h :: hs =>
    if pos + h.length > p.omega then none else
    let hint := writeBytes hint pos h
    let pos := pos + h.length
    packHintLoop (Function.update hint (p.omega + i) (UInt8.ofNat pos)) pos (i + 1) hs

/-- The hint packing of `lc_dilithium_sign_avx2_internal`: zero `hint[0 .. OMEGA)`, then
    the loop over the `K` position lists `poly_make_hint_avx` returns, each in increasing
    order. -/
def packHint (hint : Nat → UInt8) (hs : List (List UInt8)) : Option (Nat → UInt8) :=
  packHintLoop p (fun j => if j < p.omega then 0 else hint j) 0 0 hs

/-- The inner unpacking loop, over `j` from `pos` on for `r` more indices: the positions
    read, rejecting one that is not above its predecessor in the same polynomial. -/
def unpackPositions (hint : Nat → UInt8) (pos : Nat) : Nat → Nat → Option (List UInt8)
  | _, 0 => some []
  | j, r + 1 =>
    if pos < j ∧ hint j ≤ hint (j - 1) then none
    else (unpackPositions hint pos (j + 1) r).map (hint j :: ·)

/-- The outer unpacking loop over `r` more polynomials from polynomial `i` and count `pos`:
    reject a count below `pos` or above `OMEGA`, then read the positions up to it. -/
def unpackHintLoop (hint : Nat → UInt8) : Nat → Nat → Nat → Option (List (List UInt8) × Nat)
  | pos, _, 0 => some ([], pos)
  | pos, i, r + 1 =>
    let cnt := (hint (p.omega + i)).toNat
    if cnt < pos ∨ cnt > p.omega then none else
    match unpackPositions hint pos pos (cnt - pos) with
    | none => none
    | some h => (unpackHintLoop hint cnt (i + 1) r).map fun r => (h :: r.1, r.2)

/-- The hint unpacking of `lc_dilithium_verify_avx2_internal`: the loop over the `K`
    polynomials, each returned as the positions of its set coefficients in index order,
    then the check that the unused bytes up to `OMEGA` are zero. -/
def unpackHint (hint : Nat → UInt8) : Option (List (List UInt8)) :=
  match unpackHintLoop p hint 0 0 p.k with
  | none => none
  | some (hs, pos) =>
    if (List.range' pos (p.omega - pos)).all (hint · == 0) then some hs else none

/-- A hint vector the signer can produce: `K` polynomials, each a strictly increasing list
    of coefficient positions (a subset of `[0, 256)`), of total weight at most `OMEGA`. -/
def HintValid (hs : List (List UInt8)) : Prop :=
  hs.length = p.k ∧ (∀ h ∈ hs, h.Chain' (· < ·)) ∧ (hs.map List.length).sum ≤ p.omega

/-- The layout of the hint section from count `pos` and polynomial `i` on: each
    polynomial's positions at the running count, and the count after it in
    `hint[OMEGA + i]`. -/
def Encodes (hint : Nat → UInt8) : Nat → Nat → List (List UInt8) → Prop
  | _, _, [] => True
  | pos, i, h :: hs =>
    (∀ t < h.length, hint (pos + t) = h.getD t 0) ∧
      hint (p.omega + i) = UInt8.ofNat (pos + h.length) ∧ Encodes hint (pos + h.length) (i + 1) hs

/-! ### Packing -/

/-- The packing loop rejects exactly when the positions pass `OMEGA`. -/
theorem packHintLoop_isSome (hint : Nat → UInt8) (hs : List (List UInt8)) :
    ∀ pos i, pos ≤ p.omega →
      ((packHintLoop p hint pos i hs).isSome ↔ pos + (hs.map List.length).sum ≤ p.omega) := by
  induction hs generalizing hint with
  | nil => intro pos i h; simpa [packHintLoop] using h
  | cons h hs ih =>
    intro pos i hpos
    unfold packHintLoop
    split_ifs with hgt
    · simp only [Option.isSome_none, Bool.false_eq_true, false_iff, List.map_cons,
        List.sum_cons]
      omega
    · rw [ih _ _ _ (by omega)]
      simp [Nat.add_assoc]

/-- The packing loop writes only the positions `[pos, pos + weight)` and the counts
    `[OMEGA + i, OMEGA + i + |hs|)`. -/
theorem packHintLoop_frame {hint out : Nat → UInt8} {hs : List (List UInt8)} {pos i : Nat}
    (h : packHintLoop p hint pos i hs = some out) {j : Nat}
    (hj₁ : j < pos ∨ pos + (hs.map List.length).sum ≤ j)
    (hj₂ : j < p.omega + i ∨ p.omega + i + hs.length ≤ j) : out j = hint j := by
  induction hs generalizing hint pos i with
  | nil => cases h; rfl
  | cons h₀ hs ih =>
    unfold packHintLoop at h
    split_ifs at h
    simp only [List.map_cons, List.sum_cons, List.length_cons] at hj₁ hj₂
    rw [ih h (by omega) (by omega), Function.update_noteq (by omega), writeBytes, if_neg (by omega)]

/-- What the packing loop writes is the layout `Encodes`. -/
theorem packHintLoop_encodes {hint out : Nat → UInt8} {hs : List (List UInt8)} {pos i : Nat}
    (h : packHintLoop p hint pos i hs = some out) : Encodes p out pos i hs := by
  induction hs generalizing hint pos i with
  | nil => trivial
  | cons h₀ hs ih =>
    unfold packHintLoop at h
    split_ifs at h with hgt
    have hsum := (packHintLoop_isSome p _ hs _ _ (by omega)).mp
      (Option.isSome_iff_exists.mpr ⟨out, h⟩)
    refine ⟨fun t ht => ?_, ?_, ih h⟩
    · rw [packHintLoop_frame p h (.inl (by omega)) (.inl (by omega)),
        Function.update_noteq (by omega), writeBytes, if_pos (by omega), Nat.add_sub_cancel_left]
    · rw [packHintLoop_frame p h (.inr (by omega)) (.inl (by omega)), Function.update_same]

/-! ### Unpacking -/

/-- The inner loop reads back a strictly increasing list laid out from `j`, provided the
    byte before it (in the same polynomial) is smaller. -/
theorem unpackPositions_of_eq (hint : Nat → UInt8) (pos : Nat) :
    ∀ (l : List UInt8) (j : Nat), l.Chain' (· < ·) → (∀ t < l.length, hint (j + t) = l.getD t 0) →
      (pos < j → ∀ b ∈ l.head?, hint (j - 1) < b) → unpackPositions hint pos j l.length = some l
  | [], _, _, _, _ => rfl
  | a :: l, j, hc, hr, hprev => by
    have ha : hint j = a := by simpa using hr 0 (by simp)
    have hcheck : ¬(pos < j ∧ hint j ≤ hint (j - 1)) := fun ⟨hj, hle⟩ =>
      UInt8.not_le.mpr (ha ▸ hprev hj a rfl) hle
    have hrest := unpackPositions_of_eq hint pos l (j + 1) hc.tail
      (fun t ht => by simpa [Nat.add_assoc, Nat.add_comm 1 t] using hr (t + 1) (by simp; omega))
      (fun _ b hb => by simpa [ha] using hc.rel_head? hb)
    rw [List.length_cons, unpackPositions, if_neg hcheck, hrest, ha]
    rfl

/-- What the inner loop accepts: the bytes it read, each above its predecessor, the first
    above the byte before it unless it starts the polynomial. -/
theorem unpackPositions_sound (hint : Nat → UInt8) (pos : Nat) :
    ∀ (r j : Nat) (l : List UInt8), pos ≤ j → unpackPositions hint pos j r = some l →
      l.length = r ∧ (∀ t < r, hint (j + t) = l.getD t 0) ∧ l.Chain' (· < ·) ∧
        (pos < j → ∀ b ∈ l.head?, hint (j - 1) < b)
  | 0, j, l, _, h => by cases h; simp
  | r + 1, j, l, hj, h => by
    unfold unpackPositions at h
    split_ifs at h with hcheck
    obtain ⟨l', hl', rfl⟩ := Option.map_eq_some'.mp h
    obtain ⟨hlen, hread, hchain, hhead⟩ := unpackPositions_sound hint pos r (j + 1) l' (by omega) hl'
    refine ⟨by simp [hlen], fun t ht => ?_, List.chain'_cons'.mpr ⟨hhead (by omega), hchain⟩,
      fun hj' b hb => ?_⟩
    · cases t with
      | zero => simp
      | succ t => simpa [Nat.add_assoc, Nat.add_comm 1 t] using hread t (by omega)
    · simp only [List.head?_cons, Option.mem_def, Option.some.injEq] at hb
      subst hb
      exact UInt8.not_le.mp fun hle => hcheck ⟨hj', hle⟩

/-- The outer loop reads back a layout of strictly increasing position lists within
    `OMEGA`. -/
theorem unpackHintLoop_of_encodes (hint : Nat → UInt8) :
    ∀ (hs : List (List UInt8)) (pos i : Nat), Encodes p hint pos i hs →
      (∀ h ∈ hs, h.Chain' (· < ·)) → pos + (hs.map List.length).sum ≤ p.omega →
        unpackHintLoop p hint pos i hs.length = some (hs, pos + (hs.map List.length).sum)
  | [], pos, i, _, _, _ => rfl
  | h :: hs, pos, i, ⟨hr, hcnt, henc⟩, hc, hsum => by
    simp only [List.map_cons, List.sum_cons] at hsum
    have hcnt' : (hint (p.omega + i)).toNat = pos + h.length := by
      rw [hcnt]; exact UInt8.toNat_ofNat_of_lt (by have := p.omega_lt; show _ < 256; omega)
    have hpos := unpackPositions_of_eq hint pos h pos (hc h (List.mem_cons_self _ _)) hr
      (fun hlt => absurd hlt (Nat.lt_irrefl _))
    have hrest := unpackHintLoop_of_encodes hint hs (pos + h.length) (i + 1) henc
      (fun h' hh' => hc h' (List.mem_cons_of_mem _ hh')) (by omega)
    simp only [List.length_cons, unpackHintLoop, hcnt', Nat.add_sub_cancel_left, hpos, hrest,
      List.map_cons, List.sum_cons, Nat.add_assoc]
    rw [if_neg (by omega)]
    rfl

/-- What the outer loop accepts: `r` strictly increasing position lists, laid out as
    `Encodes` says, with a final count within `OMEGA`. -/
theorem unpackHintLoop_sound (hint : Nat → UInt8) :
    ∀ (r pos i : Nat) (hs : List (List UInt8)) (pos' : Nat), pos ≤ p.omega →
      unpackHintLoop p hint pos i r = some (hs, pos') →
        hs.length = r ∧ (∀ h ∈ hs, h.Chain' (· < ·)) ∧
          pos' = pos + (hs.map List.length).sum ∧ pos' ≤ p.omega ∧ Encodes p hint pos i hs
  | 0, pos, i, hs, pos', hpos, h => by cases h; simp [hpos, Encodes]
  | r + 1, pos, i, hs, pos', hpos, h => by
    unfold unpackHintLoop at h
    dsimp only at h
    split_ifs at h with hcnt
    split at h
    · cases h
    rename_i l hl
    obtain ⟨⟨hs', pos''⟩, hrest, heq⟩ := Option.map_eq_some'.mp h
    cases heq
    obtain ⟨hlen, hread, hchain, -⟩ := unpackPositions_sound hint pos _ pos l le_rfl hl
    obtain ⟨hlen', hchains, hsum, hle, henc⟩ :=
      unpackHintLoop_sound hint r _ (i + 1) hs' pos'' (by omega) hrest
    have hcnt' : pos + l.length = (hint (p.omega + i)).toNat := by omega
    refine ⟨by simp [hlen'], ?_, ?_, hle, fun t ht => hread t (by omega), ?_, ?_⟩
    · intro h hh
      rcases List.mem_cons.mp hh with rfl | hh
      exacts [hchain, hchains h hh]
    · simp only [List.map_cons, List.sum_cons]
      omega
    · rw [hcnt', uint8_ofNat_toNat]
    · rwa [hcnt']

/-! ### The whole section -/

/-- Two sections with the same layout agree on the positions and counts it covers. -/
theorem Encodes.agree {a b : Nat → UInt8} :
    ∀ (hs : List (List UInt8)) (pos i : Nat), Encodes p a pos i hs → Encodes p b pos i hs →
      ∀ j, (pos ≤ j ∧ j < pos + (hs.map List.length).sum) ∨
        (p.omega + i ≤ j ∧ j < p.omega + i + hs.length) → a j = b j
  | [], _, _, _, _, j, hj => by
    simp only [List.map_nil, List.sum_nil, List.length_nil, Nat.add_zero] at hj
    omega
  | h :: hs, pos, i, ⟨hra, hca, hea⟩, ⟨hrb, hcb, heb⟩, j, hj => by
    simp only [List.map_cons, List.sum_cons, List.length_cons] at hj
    by_cases h₁ : pos ≤ j ∧ j < pos + h.length
    · obtain ⟨t, rfl⟩ := Nat.exists_eq_add_of_le h₁.1
      rw [hra t (by omega), hrb t (by omega)]
    by_cases h₂ : j = p.omega + i
    · rw [h₂, hca, hcb]
    exact Encodes.agree hs _ _ hea heb j (by omega)

/-- The zero check at the end of the unpacking. -/
theorem all_range'_eq_zero (hint : Nat → UInt8) (pos : Nat) :
    (List.range' pos (p.omega - pos)).all (hint · == 0) = true ↔
      ∀ j, pos ≤ j → j < p.omega → hint j = 0 := by
  simp only [List.all_eq_true, List.mem_range'_1, beq_iff_eq, and_imp]
  exact ⟨fun h j h₁ h₂ => h j h₁ (by omega), fun h j h₁ h₂ => h j h₁ (by omega)⟩

/-- A valid hint vector packs into its layout, zero padded up to `OMEGA`, leaving every byte
    from `OMEGA + K` on alone. -/
theorem packHint_spec (buf : Nat → UInt8) {hs : List (List UInt8)} (hv : HintValid p hs) :
    ∃ out, packHint p buf hs = some out ∧ Encodes p out 0 0 hs ∧
      (∀ j, (hs.map List.length).sum ≤ j → j < p.omega → out j = 0) ∧
      (∀ j, p.omega + p.k ≤ j → out j = buf j) := by
  obtain ⟨hk, -, hsum⟩ := hv
  obtain ⟨out, hout⟩ := Option.isSome_iff_exists.mp
    ((packHintLoop_isSome p _ hs 0 0 (Nat.zero_le _)).mpr (by omega))
  refine ⟨out, hout, packHintLoop_encodes p hout, fun j h₁ h₂ => ?_, fun j hj => ?_⟩
  · rw [packHintLoop_frame p hout (.inr (by omega)) (.inl (by omega)), if_pos h₂]
  · rw [packHintLoop_frame p hout (.inr (by omega)) (.inr (by omega)), if_neg (by omega)]

/-- A section laid out for a valid hint vector and zero padded is accepted, and decodes to
    that vector. -/
theorem unpackHint_of_encodes {s : Nat → UInt8} {hs : List (List UInt8)} (hv : HintValid p hs)
    (henc : Encodes p s 0 0 hs) (hzero : ∀ j, (hs.map List.length).sum ≤ j → j < p.omega → s j = 0) :
    unpackHint p s = some hs := by
  obtain ⟨hk, hc, hsum⟩ := hv
  have hloop := unpackHintLoop_of_encodes p s hs 0 0 henc hc (by omega)
  rw [hk, Nat.zero_add] at hloop
  rw [unpackHint, hloop]
  simp only [if_pos ((all_range'_eq_zero p s _).mpr hzero)]

/-- What the unpacking accepts is the zero-padded layout of a valid hint vector. -/
theorem unpackHint_sound {s : Nat → UInt8} {hs : List (List UInt8)}
    (h : unpackHint p s = some hs) :
    HintValid p hs ∧ Encodes p s 0 0 hs ∧
      ∀ j, (hs.map List.length).sum ≤ j → j < p.omega → s j = 0 := by
  unfold unpackHint at h
  split at h
  · cases h
  rename_i hs' pos hloop
  split_ifs at h with hzero
  cases h
  obtain ⟨hlen, hc, hpos, hle, henc⟩ := unpackHintLoop_sound p s p.k 0 0 hs pos (Nat.zero_le _) hloop
  rw [Nat.zero_add] at hpos
  subst hpos
  exact ⟨⟨hlen, hc, hle⟩, henc, (all_range'_eq_zero p s _).mp hzero⟩

/-- Two zero-padded layouts of one valid hint vector agree on the whole section. -/
theorem eq_of_encodes {a b : Nat → UInt8} {hs : List (List UInt8)} (hv : HintValid p hs)
    (ha : Encodes p a 0 0 hs) (hb : Encodes p b 0 0 hs)
    (ha₀ : ∀ j, (hs.map List.length).sum ≤ j → j < p.omega → a j = 0)
    (hb₀ : ∀ j, (hs.map List.length).sum ≤ j → j < p.omega → b j = 0) :
    ∀ j < p.omega + p.k, a j = b j := by
  intro j hj
  by_cases h₁ : (hs.map List.length).sum ≤ j ∧ j < p.omega
  · rw [ha₀ j h₁.1 h₁.2, hb₀ j h₁.1 h₁.2]
  · exact Encodes.agree p hs 0 0 ha hb j (by have := hv.1; have := hv.2.2; omega)

/-- **The hint encoding is canonical.**  Every hint vector of `K` subsets of `[0, 256)` of
    total weight at most `OMEGA` packs, writing only inside `hint[0 .. OMEGA + K)`, into a
    section the verifier accepts and decodes back to it; every section the verifier accepts
    decodes to such a vector and is exactly what the signer writes for it; so each hint
    vector has exactly one accepted encoding. -/
theorem hint_encoding_canonical :
    (∀ (buf : Nat → UInt8) (hs : List (List UInt8)), HintValid p hs →
      ∃ out, packHint p buf hs = some out ∧ (∀ j, p.omega + p.k ≤ j → out j = buf j) ∧
        unpackHint p out = some hs) ∧
    (∀ (s : Nat → UInt8) (hs : List (List UInt8)), unpackHint p s = some hs →
      HintValid p hs ∧ ∀ buf : Nat → UInt8, ∃ out, packHint p buf hs = some out ∧
        ∀ j < p.omega + p.k, out j = s j) ∧
    (∀ (s s' : Nat → UInt8) (hs : List (List UInt8)), unpackHint p s = some hs →
      unpackHint p s' = some hs → ∀ j < p.omega + p.k, s j = s' j) := by
  refine ⟨fun buf hs hv => ?_, fun s hs h => ?_, fun s s' hs h h' => ?_⟩
  · obtain ⟨out, hout, henc, hzero, hframe⟩ := packHint_spec p buf hv
    exact ⟨out, hout, hframe, unpackHint_of_encodes p hv henc hzero⟩
  · obtain ⟨hv, henc, hzero⟩ := unpackHint_sound p h
    refine ⟨hv, fun buf => ?_⟩
    obtain ⟨out, hout, henc', hzero', -⟩ := packHint_spec p buf hv
    exact ⟨out, hout, eq_of_encodes p hv henc' henc hzero' hzero⟩
  · obtain ⟨hv, henc, hzero⟩ := unpackHint_sound p h
    obtain ⟨-, henc', hzero'⟩ := unpackHint_sound p h'
    exact eq_of_encodes p hv henc henc' hzero hzero'

end Leancrypto.Dilithium
