import Mathlib.Logic.Function.Iterate
import Mathlib.Data.List.Basic

namespace Leancrypto

/-!
# Bytes — XOR on `uint8_t` and on byte strings

The library XORs keystream into buffers (`xor_64`), input into the sponge lanes
(`sha3_fill_state_bytes`) and padding bytes into the state.  This file collects the
byte-level facts these share:

* the group laws of `^^^` on `UInt8`, transported from `BitVec 8`;
* `xorBytes`, the byte-wise XOR of two strings, with `xorBytes_cancel`, the identity
  behind every encrypt/decrypt round trip, and the append/take laws that let a
  keystream be consumed in pieces.
-/

/-! ### `^^^` on `UInt8` -/

@[simp] theorem uint8_xor_zero (a : UInt8) : a ^^^ 0 = a :=
  UInt8.eq_of_toBitVec_eq BitVec.xor_zero

@[simp] theorem uint8_zero_xor (a : UInt8) : 0 ^^^ a = a :=
  UInt8.eq_of_toBitVec_eq BitVec.zero_xor

theorem uint8_xor_assoc (a b c : UInt8) : a ^^^ b ^^^ c = a ^^^ (b ^^^ c) :=
  UInt8.eq_of_toBitVec_eq (BitVec.xor_assoc _ _ _)

@[simp] theorem uint8_xor_self (a : UInt8) : a ^^^ a = 0 :=
  UInt8.eq_of_toBitVec_eq BitVec.xor_self

/-- XORing the same byte twice is the identity. -/
@[simp] theorem uint8_xor_xor_cancel (a b : UInt8) : a ^^^ b ^^^ b = a := by
  rw [uint8_xor_assoc, uint8_xor_self, uint8_xor_zero]

/-- XORing a non-zero byte changes the byte. -/
theorem uint8_xor_ne_self (a : UInt8) {b : UInt8} (hb : b ≠ 0) : a ^^^ b ≠ a := by
  intro h
  apply hb
  calc b = a ^^^ a ^^^ b := by rw [uint8_xor_self, uint8_zero_xor]
    _ = a ^^^ (a ^^^ b) := uint8_xor_assoc _ _ _
    _ = 0 := by rw [h, uint8_xor_self]

/-- A byte survives the round trip through `Nat`. -/
@[simp] theorem uint8_ofNat_toNat (a : UInt8) : UInt8.ofNat a.toNat = a :=
  UInt8.eq_of_val_eq (Fin.ext (by simp [UInt8.ofNat, UInt8.toNat, Fin.ofNat,
    Nat.mod_eq_of_lt a.val.isLt]))

/-! ### Byte-wise XOR of strings -/

/-- `xor_64(out, ks, n)` on byte strings: the first `min |a| |b|` bytes of `a ⊕ b`. -/
def xorBytes (a b : List UInt8) : List UInt8 := List.zipWith (· ^^^ ·) a b

@[simp] theorem xorBytes_nil_left (b : List UInt8) : xorBytes [] b = [] := rfl

@[simp] theorem xorBytes_nil_right (a : List UInt8) : xorBytes a [] = [] := by
  cases a <;> rfl

@[simp] theorem xorBytes_cons (x y : UInt8) (a b : List UInt8) :
    xorBytes (x :: a) (y :: b) = (x ^^^ y) :: xorBytes a b := rfl

@[simp] theorem length_xorBytes (a b : List UInt8) :
    (xorBytes a b).length = min a.length b.length := by
  simp [xorBytes]

/-- XOR with the same keystream twice gives the data back. -/
theorem xorBytes_cancel (a k : List UInt8) (h : a.length ≤ k.length) :
    xorBytes (xorBytes a k) k = a := by
  induction a generalizing k with
  | nil => rfl
  | cons x a ih =>
    cases k with
    | nil => simp at h
    | cons y k => simp [ih k (by simpa using h)]

/-- A keystream consumed in two pieces: the data pieces meet consecutive keystream
    segments. -/
theorem xorBytes_append (a b k : List UInt8) (h : a.length ≤ k.length) :
    xorBytes (a ++ b) k = xorBytes a k ++ xorBytes b (k.drop a.length) := by
  induction a generalizing k with
  | nil => rfl
  | cons x a ih =>
    cases k with
    | nil => simp at h
    | cons y k => simp [ih k (by simpa using h)]

/-- Keystream past the data is not read. -/
theorem xorBytes_append_right (a k k' : List UInt8) (h : a.length ≤ k.length) :
    xorBytes a (k ++ k') = xorBytes a k := by
  induction a generalizing k with
  | nil => rfl
  | cons x a ih =>
    cases k with
    | nil => simp at h
    | cons y k => simp [ih k (by simpa using h)]

/-- XOR with zero bytes is the identity. -/
@[simp] theorem xorBytes_replicate_zero (a : List UInt8) :
    xorBytes a (List.replicate a.length 0) = a := by
  induction a with
  | nil => rfl
  | cons x a ih => simp [List.replicate_succ, ih]

/-- Data past the keystream is not read. -/
theorem xorBytes_append_of_le (a b k : List UInt8) (h : k.length ≤ a.length) :
    xorBytes (a ++ b) k = xorBytes a k := by
  induction k generalizing a with
  | nil => simp
  | cons y k ih =>
    cases a with
    | nil => simp at h
    | cons x a => simp [ih a (by simpa using h)]

/-- Data and keystream split at the same point. -/
theorem xorBytes_append_append (a b k k' : List UInt8) (h : a.length = k.length) :
    xorBytes (a ++ b) (k ++ k') = xorBytes a k ++ xorBytes b k' := by
  rw [xorBytes_append _ _ _ (by simp [h]), xorBytes_append_right _ _ _ h.le,
    List.drop_left' h.symm]

/-! ### Byte arrays -/

/-- The `n` bytes of a byte array from position `p` on. -/
def readBytes (buf : Nat → UInt8) (p n : Nat) : List UInt8 :=
  (List.range n).map fun j => buf (p + j)

@[simp] theorem length_readBytes (buf : Nat → UInt8) (p n : Nat) :
    (readBytes buf p n).length = n := by
  simp [readBytes]

theorem readBytes_succ (buf : Nat → UInt8) (p n : Nat) :
    readBytes buf p (n + 1) = buf p :: readBytes buf (p + 1) n := by
  simp only [readBytes, List.range_succ_eq_map, List.map_cons, List.map_map]
  congr 2
  funext j
  simp [Nat.add_comm j 1, Nat.add_assoc]

theorem readBytes_const (c : UInt8) (p n : Nat) :
    readBytes (fun _ => c) p n = List.replicate n c := by
  simp [readBytes, List.map_const']

/-- `memcpy(buf, bs, |bs|)` into a byte array. -/
def fillBuffer (buf : Nat → UInt8) (bs : List UInt8) : Nat → UInt8 :=
  fun i => bs.getD i (buf i)

/-- A copy leaves the bytes past its end alone. -/
theorem fillBuffer_of_le (buf : Nat → UInt8) (bs : List UInt8) {i : Nat}
    (h : bs.length ≤ i) : fillBuffer buf bs i = buf i := by
  simp [fillBuffer, List.getElem?_eq_none h]

/-- Reading back what was just copied. -/
theorem readBytes_fillBuffer (buf : Nat → UInt8) {bs : List UInt8} {n : Nat}
    (h : bs.length = n) : readBytes (fillBuffer buf bs) 0 n = bs := by
  subst h
  apply List.ext_getElem (by simp)
  intro i h _
  simp_all [readBytes, fillBuffer]

/-- Copying a buffer's own bytes back changes nothing. -/
@[simp] theorem fillBuffer_readBytes (buf : Nat → UInt8) (n : Nat) :
    fillBuffer buf (readBytes buf 0 n) = buf := by
  funext i
  by_cases h : i < n
  · simp [fillBuffer, readBytes, h]
  · have hr : (List.range n).length ≤ i := by simpa using h
    simp [fillBuffer, readBytes, List.getElem?_eq_none hr]

/-- A second copy at least as long as the first hides it. -/
theorem fillBuffer_fillBuffer (buf : Nat → UInt8) {bs bs' : List UInt8}
    (h : bs.length ≤ bs'.length) : fillBuffer (fillBuffer buf bs) bs' = fillBuffer buf bs' := by
  funext i
  by_cases hi : i < bs'.length
  · simp [fillBuffer, hi]
  · simp [fillBuffer, List.getElem?_eq_none (Nat.not_lt.mp hi), List.getElem?_eq_none (h.trans (Nat.not_lt.mp hi))]

end Leancrypto
