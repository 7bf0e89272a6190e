import Leancrypto.Keccak.State

namespace Leancrypto.Keccak

/-!
# Keccak glue — the absorbing phase of the ARMv8 back-end

`keccak_arm_asm_absorb_internal` (the ARMv8 assembly and Crypto-Extension glue) keeps
a partial block in the lanes between calls: a call first tops up the partial block
(`partial = msg_len % r`), permutes if it completes, hands the whole blocks that follow
to the assembly bulk absorb, and XORs the rest in at byte `0`.

* `absorbBlocks`, `keccakAbsorb` — the bulk absorb, modelled from its contract;
* `keccakArmAsmAbsorbInternal` — the glue, translated from the source, with its last
  two steps named `absorbTail`;
* `absorbTail_eq` — the bulk absorb plus the leftover copy absorb like the reference;
* `Represents`, `keccakArmAsmAbsorbInternal_represents` — the step lemma: one call
  keeps a context standing for the reference state after the bytes absorbed so far;
* `keccakArmAsmAbsorbInternal_chunks` — over any split of a message into chunks, the
  lanes after the calls are those of the reference absorb of the whole message, and
  `msg_len` is its length; so the lanes do not depend on the split.
-/

variable (f : KeccakState → KeccakState) (r : Rate)

/-- Modelled from the spec: the assembly bulk absorb `lc_keccak_absorb_arm_asm` (and its
    Crypto-Extension twin) is outside the sources; the glue relies on it XORing each of
    the first `n` whole `r`-byte blocks of `in` into the rate, each followed by one
    permutation. -/
def absorbBlocks : KeccakState → List UInt8 → Nat → KeccakState
  | A, _, 0 => A
  | A, inp, n + 1 => absorbBlocks (f (sha3FillStateBytes A 0 (inp.take r.val))) (inp.drop r.val) n

/-- Modelled from the spec: `absorb(A, in, len, r)` absorbs the `⌊len / r⌋` whole blocks
    and returns the number of bytes left, `len mod r`. -/
def keccakAbsorb (A : KeccakState) (inp : List UInt8) : KeccakState × Nat :=
  (absorbBlocks f r A inp (inp.length / r.val), inp.length % r.val)

/-- The last two steps of `keccak_arm_asm_absorb_internal`: whole blocks through the bulk
    absorb (when there is one), then the bytes left XORed into the partial block buffer. -/
def absorbTail (A : KeccakState) (inp : List UInt8) : KeccakState :=
  if r.val ≤ inp.length then
    sha3FillStateBytes (keccakAbsorb f r A inp).1 0 (inp.drop (inp.length - (keccakAbsorb f r A inp).2))
  else sha3FillStateBytes A 0 inp

/-- `keccak_arm_asm_absorb_internal(ctx, in, inlen, absorb, keccakf1600)`.  `msg_len` is a
    `size_t`; the permutation and the bulk absorb are those of the back-end. -/
def keccakArmAsmAbsorbInternal (ctx : Sha3State) (inp : List UInt8) : Sha3State :=
  let blocksize := ctx.r.val
  let partialBlock := ctx.msgLen % blocksize
  let ctx := { ctx with squeezeMore := false, msgLen := (ctx.msgLen + inp.length) % 2 ^ 64 }
  if partialBlock = 0 then { ctx with state := absorbTail f ctx.r ctx.state inp }
  else if inp.length < blocksize - partialBlock then
    { ctx with state := sha3FillStateBytes ctx.state partialBlock inp }
  else
    let todo := blocksize - partialBlock
    let A := f (sha3FillStateBytes ctx.state partialBlock (inp.take todo))
    { ctx with state := absorbTail f ctx.r A (inp.drop todo) }

/-! ### The bulk absorb against the reference -/

/-- The reference absorb from an empty tail: `⌊|in| / r⌋` whole blocks, then the rest as
    the tail. -/
theorem refAbsorb_init (A : KeccakState) (inp : List UInt8) :
    (refAbsorb f r (Absorbing.init r A) inp).lanes = absorbBlocks f r A inp (inp.length / r.val) ∧
      (refAbsorb f r (Absorbing.init r A) inp).tail = inp.drop (r.val * (inp.length / r.val)) := by
  have hr := r.pos
  generalize h : inp.length / r.val = n
  induction n generalizing A inp with
  | zero =>
    have hlt : inp.length < r.val := by
      rcases Nat.lt_or_ge inp.length r.val with h' | h'
      · exact h'
      · have := Nat.div_pos h' hr; omega
    simpa [absorbBlocks] using refAbsorb_of_lt f r (Absorbing.init r A) inp (by simpa [Absorbing.init])
  | succ n ih =>
    have hge : r.val ≤ inp.length := by
      by_contra h'; rw [Nat.div_eq_of_lt (by omega)] at h; omega
    have hn : (inp.drop r.val).length / r.val = n := by
      have := Nat.sub_mul_div inp.length r.val 1 (by omega)
      rw [Nat.mul_one, h] at this
      rw [List.length_drop, this]; rfl
    have hblk := refAbsorb_of_eq f r (Absorbing.init r A) (inp.take r.val)
      (by simp [Absorbing.init]; omega)
    obtain ⟨ih₁, ih₂⟩ := ih (f (sha3FillStateBytes A 0 (inp.take r.val))) (inp.drop r.val) hn
    have hsplit : refAbsorb f r (Absorbing.init r A) inp =
        refAbsorb f r (Absorbing.init r (f (sha3FillStateBytes A 0 (inp.take r.val)))) (inp.drop r.val) := by
      conv_lhs => rw [← List.take_append_drop r.val inp, refAbsorb_append, hblk]
      rfl
    rw [hsplit, ih₁, ih₂, List.drop_drop]
    exact ⟨rfl, by rw [Nat.mul_succ, Nat.add_comm (r.val * n)]⟩

/-- The last two steps of the glue absorb exactly as the reference does from an empty
    tail. -/
theorem absorbTail_eq (A : KeccakState) (inp : List UInt8) :
    absorbTail f r A inp = (refAbsorb f r (Absorbing.init r A) inp).toLanes := by
  obtain ⟨h₁, h₂⟩ := refAbsorb_init f r A inp
  have hsplit : inp.length - inp.length % r.val = r.val * (inp.length / r.val) := by
    have := Nat.div_add_mod inp.length r.val; omega
  rw [Absorbing.toLanes, h₁, h₂, absorbTail]
  split
  · rw [keccakAbsorb, hsplit]
  · rw [Nat.div_eq_of_lt (by omega)]; rfl

/-! ### The step and the run -/

/-- The glue context `ctx` stands for the reference state `s` after `n` absorbed bytes. -/
structure Represents (ctx : Sha3State) (s : Absorbing r) (n : Nat) : Prop where
  rate : ctx.r = r
  lanes : ctx.state = s.toLanes
  msgLen : ctx.msgLen = n
  tail : s.tail.length = n % r.val

@[simp] theorem keccakArmAsmAbsorbInternal_r (ctx : Sha3State) (c : List UInt8) :
    (keccakArmAsmAbsorbInternal f ctx c).r = ctx.r := by
  dsimp only [keccakArmAsmAbsorbInternal]; split_ifs <;> rfl

@[simp] theorem keccakArmAsmAbsorbInternal_msgLen (ctx : Sha3State) (c : List UInt8) :
    (keccakArmAsmAbsorbInternal f ctx c).msgLen = (ctx.msgLen + c.length) % 2 ^ 64 := by
  dsimp only [keccakArmAsmAbsorbInternal]; split_ifs <;> rfl

@[simp] theorem keccakArmAsmAbsorbInternal_offset (ctx : Sha3State) (c : List UInt8) :
    (keccakArmAsmAbsorbInternal f ctx c).offset = ctx.offset := by
  dsimp only [keccakArmAsmAbsorbInternal]; split_ifs <;> rfl

@[simp] theorem keccakArmAsmAbsorbInternal_padding (ctx : Sha3State) (c : List UInt8) :
    (keccakArmAsmAbsorbInternal f ctx c).padding = ctx.padding := by
  dsimp only [keccakArmAsmAbsorbInternal]; split_ifs <;> rfl

@[simp] theorem keccakArmAsmAbsorbInternal_squeezeMore (ctx : Sha3State) (c : List UInt8) :
    (keccakArmAsmAbsorbInternal f ctx c).squeezeMore = false := by
  dsimp only [keccakArmAsmAbsorbInternal]; split_ifs <;> rfl

/-- Absorbing keeps the squeeze bookkeeping of a context that has not squeezed yet. -/
theorem foldl_keccakArmAsmAbsorbInternal_fields (ctx : Sha3State) (hsm : ctx.squeezeMore = false)
    (cs : List (List UInt8)) :
    (cs.foldl (keccakArmAsmAbsorbInternal f) ctx).squeezeMore = false ∧
      (cs.foldl (keccakArmAsmAbsorbInternal f) ctx).offset = ctx.offset ∧
      (cs.foldl (keccakArmAsmAbsorbInternal f) ctx).padding = ctx.padding := by
  induction cs generalizing ctx with
  | nil => exact ⟨hsm, rfl, rfl⟩
  | cons c cs ih => simpa using ih (keccakArmAsmAbsorbInternal f ctx c) (by simp)

/-- The lanes after one call are those of the reference state after the chunk, in each of
    the three paths of the glue. -/
theorem keccakArmAsmAbsorbInternal_state (ctx : Sha3State) (s : Absorbing ctx.r)
    (hl : ctx.state = s.toLanes) (ht : s.tail.length = ctx.msgLen % ctx.r.val) (c : List UInt8) :
    (keccakArmAsmAbsorbInternal f ctx c).state = (refAbsorb f ctx.r s c).toLanes := by
  have hfill : ∀ d, sha3FillStateBytes ctx.state (ctx.msgLen % ctx.r.val) d =
      sha3FillStateBytes s.lanes 0 (s.tail ++ d) := by
    intro d; rw [hl, Absorbing.toLanes, sha3FillStateBytes_append, ht, Nat.zero_add]
  have hlt := Nat.mod_lt ctx.msgLen ctx.r.pos
  dsimp only [keccakArmAsmAbsorbInternal]
  split_ifs with h₀ h₁
  · -- no partial block: the tail is empty
    have hs : s = Absorbing.init ctx.r s.lanes :=
      Absorbing.ext rfl (List.eq_nil_of_length_eq_zero (ht.trans h₀))
    rw [hs] at hl ⊢
    simpa [hl, Absorbing.toLanes, Absorbing.init] using absorbTail_eq f ctx.r s.lanes c
  · -- the chunk stays inside the partial block
    obtain ⟨h₂, h₃⟩ := refAbsorb_of_lt f ctx.r s c (by omega)
    simp only [Absorbing.toLanes, h₂, h₃, ← hfill]
  · -- the chunk completes the partial block, then whole blocks and a new tail
    have hblk := refAbsorb_of_eq f ctx.r s (c.take (ctx.r.val - ctx.msgLen % ctx.r.val))
      (by simp; omega)
    rw [← List.take_append_drop (ctx.r.val - ctx.msgLen % ctx.r.val) c, refAbsorb_append, hblk,
      List.take_append_drop]
    simpa [hfill, Absorbing.init] using
      absorbTail_eq f ctx.r (f (sha3FillStateBytes s.lanes 0 (s.tail ++
        c.take (ctx.r.val - ctx.msgLen % ctx.r.val)))) (c.drop (ctx.r.val - ctx.msgLen % ctx.r.val))

/-- **Step lemma.** One call of the glue keeps the context standing for the reference
    state, as long as `msg_len` does not wrap. -/
theorem keccakArmAsmAbsorbInternal_represents {ctx : Sha3State} {s : Absorbing r} {n : Nat}
    (h : Represents r ctx s n) (c : List UInt8) (hn : n + c.length < 2 ^ 64) :
    Represents r (keccakArmAsmAbsorbInternal f ctx c) (refAbsorb f r s c) (n + c.length) := by
  obtain ⟨rfl, hl, rfl, ht⟩ := h
  exact ⟨keccakArmAsmAbsorbInternal_r f ctx c, keccakArmAsmAbsorbInternal_state f ctx s hl ht c,
    by rw [keccakArmAsmAbsorbInternal_msgLen, Nat.mod_eq_of_lt hn],
    by rw [length_tail_refAbsorb, ht, Nat.mod_add_mod]⟩

/-- **Run lemma.** Over a sequence of chunks, the context keeps standing for the reference
    state after their concatenation. -/
theorem keccakArmAsmAbsorbInternal_foldl {ctx : Sha3State} {s : Absorbing r} {n : Nat}
    (h : Represents r ctx s n) (cs : List (List UInt8)) (hn : n + cs.flatten.length < 2 ^ 64) :
    Represents r (cs.foldl (keccakArmAsmAbsorbInternal f) ctx) (refAbsorb f r s cs.flatten)
      (n + cs.flatten.length) := by
  induction cs generalizing ctx s n with
  | nil => simpa using h
  | cons c cs ih =>
    simp only [List.flatten_cons, List.length_append, List.foldl_cons, refAbsorb_append] at hn ⊢
    rw [← Nat.add_assoc]
    exact ih (keccakArmAsmAbsorbInternal_represents f r h c (by omega)) (by omega)

/-- **Chunking invariance of the ARMv8 absorb.**  From a context with `msg_len = 0`, the
    calls on any split `cs` of a message `m = cs.flatten` with `|m| < 2⁶⁴` leave the lanes
    of the reference absorb of `m` (whole blocks XORed in and permuted, the last
    `|m| mod r` bytes XORed at bytes `0 ..`), and `msg_len = |m|`: the split does not
    matter. -/
theorem keccakArmAsmAbsorbInternal_chunks (ctx₀ : Sha3State) (h₀ : ctx₀.msgLen = 0)
    (cs : List (List UInt8)) (hlen : cs.flatten.length < 2 ^ 64) :
    (cs.foldl (keccakArmAsmAbsorbInternal f) ctx₀).state =
        (refAbsorb f ctx₀.r (Absorbing.init ctx₀.r ctx₀.state) cs.flatten).toLanes ∧
      (cs.foldl (keccakArmAsmAbsorbInternal f) ctx₀).msgLen = cs.flatten.length := by
  have h₁ : Represents ctx₀.r ctx₀ (Absorbing.init ctx₀.r ctx₀.state) 0 :=
    ⟨rfl, rfl, h₀, by simp [Absorbing.init]⟩
  have h := keccakArmAsmAbsorbInternal_foldl f ctx₀.r h₁ cs (by omega)
  exact ⟨h.lanes, by simpa using h.msgLen⟩

/-- The chunking law for SHAKE-256 on the message `01 02 03` absorbed as `01 02` and `03`. -/
theorem keccakArmAsmAbsorbInternal_chunks_shake256 :
    (shake256Init 32).msgLen = 0 ∧ ([[1, 2], [3]] : List (List UInt8)).flatten.length < 2 ^ 64 ∧
      (([[1, 2], [3]] : List (List UInt8)).foldl (keccakArmAsmAbsorbInternal id) (shake256Init 32)).state =
        (refAbsorb id shake256Rate (Absorbing.init shake256Rate (fun _ => 0)) [1, 2, 3]).toLanes ∧
      (([[1, 2], [3]] : List (List UInt8)).foldl (keccakArmAsmAbsorbInternal id) (shake256Init 32)).msgLen
        = 3 :=
  ⟨rfl, by decide, keccakArmAsmAbsorbInternal_chunks id (shake256Init 32) rfl [[1, 2], [3]] (by decide)⟩

end Leancrypto.Keccak
