import Mathlib

namespace Leancrypto.SlhDsa

/-!
# SLH-DSA TreeHash — the stack traversal against the Merkle tree

`treehashx1` (`sphincs_utilsx1.h`) computes the root of a Merkle tree of height
`tree_height` and the authentication path of leaf `leaf_idx` with Merkle's TreeHash: it
generates the leaves left to right, parks every left child at its height in `stack_sp`,
and on each right child climbs, hashing with the parked left sibling, until it reaches a
left child (which it parks) or the root.  On the way it copies every node on the leaf's
authentication path into `auth_path` with a constant-time `cmov`.

* `climb`, `treehashLoop`, `treehashx1` — the inner loop, the outer loop (with a fuel
  bound: the source loop leaves only through `goto out`) and the function, with
  `gen_leaf` and `thash` pure functions that return an error code with their output;
* `node` — the Merkle tree the traversal is compared with;
* `StackInv`, `AuthInv` — the invariants of the outer loop: where bit `h` of the next
  leaf index is set, `stack_sp[h]` holds the left sibling; every authentication node
  whose subtree is complete is in place;
* `climb_spec`, `treehashLoop_spec` — the step and the run lemma;
* `treehashx1_merkle` — `treehashx1` calls `gen_leaf` on the `2 ^ tree_height` leaves in
  order and no others, and when it returns a code `≥ 0` the root and the authentication
  path are the Merkle tree's.
-/

/-- The words of an SLH-DSA hash-tree address.  Modelled from the spec:
    `set_tree_height` and `set_tree_index` are not in the sources; each overwrites one word
    and leaves the others (`rest`: layer, tree and type) alone. -/
structure TreeAddr where
  rest : List UInt32
  treeHeight : UInt32
  treeIndex : UInt32
  deriving DecidableEq, Repr

/-- The arguments of `treehashx1` that stay fixed during a call: the leaf generator and
    the tweakable hash (both returning an error code with the `LC_SPX_N` bytes they write),
    `leaf_idx`, `idx_offset` and `tree_height`. -/
structure TreeHashArgs where
  genLeaf : UInt32 → Int × List UInt8
  thash : TreeAddr → List UInt8 → Int × List UInt8
  leafIdx : UInt32
  idxOffset : UInt32
  treeHeight : Nat

/-- The memory `treehashx1` writes: `root`, the `auth_path` and `stack_sp` blocks by
    height, and `tree_addr`; `calls` lists the indices passed to `gen_leaf`, in order. -/
structure TreeHashState where
  root : List UInt8
  authPath : Nat → List UInt8
  stack : Nat → List UInt8
  treeAddr : TreeAddr
  calls : List UInt32

/-- How the inner loop ends: `goto out` with the return code, or `break` at a left child
    of height `h` holding node `cur`. -/
inductive ClimbEnd
  | out (ret : Int) (st : TreeHashState)
  | left (h : Nat) (cur : List UInt8) (st : TreeHashState)

/-- The memory at the end of the inner loop. -/
def ClimbEnd.state : ClimbEnd → TreeHashState
  | .out _ st => st
  | .left _ _ st => st

@[simp] theorem ClimbEnd.state_out (ret : Int) (st : TreeHashState) : (ClimbEnd.out ret st).state = st :=
  rfl

@[simp] theorem ClimbEnd.state_left (h : Nat) (cur : List UInt8) (st : TreeHashState) :
    (ClimbEnd.left h cur st).state = st :=
  rfl

variable (A : TreeHashArgs)

/-! ### The code -/

/-- `cmov(&auth_path[h * LC_SPX_N], cur, LC_SPX_N, cond)`: `auth_path[h]` becomes `cur`
    when `cond` holds. -/
def cmovAuthPath (st : TreeHashState) (h : Nat) (cur : List UInt8) (cond : Prop) [Decidable cond] :
    TreeHashState :=
  if cond then { st with authPath := Function.update st.authPath h cur } else st

/-- `set_tree_height(tree_addr, height)` and `set_tree_index(tree_addr, index)`. -/
def setTreeAddr (st : TreeHashState) (height index : UInt32) : TreeHashState :=
  { st with treeAddr := { st.treeAddr with treeHeight := height, treeIndex := index } }

section Fields

variable (st : TreeHashState) (h : Nat) (cur : List UInt8) (c : Prop) [Decidable c]

@[simp] theorem cmovAuthPath_stack : (cmovAuthPath st h cur c).stack = st.stack := by
  unfold cmovAuthPath; split <;> rfl

@[simp] theorem cmovAuthPath_calls : (cmovAuthPath st h cur c).calls = st.calls := by
  unfold cmovAuthPath; split <;> rfl

@[simp] theorem cmovAuthPath_treeAddr : (cmovAuthPath st h cur c).treeAddr = st.treeAddr := by
  unfold cmovAuthPath; split <;> rfl

theorem cmovAuthPath_authPath (h' : Nat) :
    (cmovAuthPath st h cur c).authPath h' = if c ∧ h' = h then cur else st.authPath h' := by
  unfold cmovAuthPath
  by_cases hc : c <;> by_cases hh : h' = h <;> simp [hc, hh]

@[simp] theorem setTreeAddr_stack (x y : UInt32) : (setTreeAddr st x y).stack = st.stack := rfl

@[simp] theorem setTreeAddr_calls (x y : UInt32) : (setTreeAddr st x y).calls = st.calls := rfl

@[simp] theorem setTreeAddr_authPath (x y : UInt32) :
    (setTreeAddr st x y).authPath = st.authPath := rfl

@[simp] theorem setTreeAddr_treeAddr (x y : UInt32) :
    (setTreeAddr st x y).treeAddr = ⟨st.treeAddr.rest, x, y⟩ := rfl

end Fields

/-- The inner loop of `treehashx1` for leaf `idx` at height `h`, `r = tree_height - h`
    levels below the root, with `internal_idx`, `internal_leaf`, `internal_idx_offset`,
    the current node `cur` and the last return code `ret`: at the root it is copied out;
    otherwise the `cmov` into `auth_path[h]`, a `break` at a left child unless `idx` is the
    last leaf, else the parked left sibling hashed with `cur` under height `h + 1` and
    index `internal_idx / 2 + internal_idx_offset`. -/
def climb (idx maxIdx : UInt32) :
    Nat → Nat → UInt32 → UInt32 → UInt32 → List UInt8 → Int → TreeHashState → ClimbEnd
  | 0, _, _, _, _, cur, ret, st => .out ret { st with root := cur }
  | r + 1, h, iIdx, iLeaf, iOff, cur, _, st =>
    let st := cmovAuthPath st h cur (iIdx ^^^ iLeaf = 1)
    if iIdx &&& 1 = 0 ∧ idx < maxIdx then .left h cur st
    else
      let iOff := iOff >>> 1
      let st := setTreeAddr st (UInt32.ofNat (h + 1)) (iIdx / 2 + iOff)
      let res := A.thash st.treeAddr (st.stack h ++ cur)
      if res.1 < 0 then .out res.1 st
      else climb idx maxIdx r (h + 1) (iIdx >>> 1) (iLeaf >>> 1) iOff res.2 res.1 st

/-- The outer loop of `treehashx1` from leaf `idx`, with `fuel` passes left: `gen_leaf` on
    `idx + idx_offset`, the inner loop from height 0, and at a `break` the node parked in
    `stack_sp[h]`. -/
def treehashLoop (maxIdx : UInt32) : Nat → UInt32 → TreeHashState → Option (Int × TreeHashState)
  | 0, _, _ => none
  | fuel + 1, idx, st =>
    let leaf := A.genLeaf (idx + A.idxOffset)
    let st := { st with calls := st.calls ++ [idx + A.idxOffset] }
    if leaf.1 < 0 then some (leaf.1, st)
    else
      match climb A idx maxIdx A.treeHeight 0 idx A.leafIdx A.idxOffset leaf.2 leaf.1 st with
      | .out ret st => some (ret, st)
      | .left h cur st =>
        treehashLoop maxIdx fuel (idx + 1) { st with stack := Function.update st.stack h cur }

/-- `treehashx1`: `max_idx = (uint32_t)((1 << tree_height) - 1)`, then the loop from
    leaf 0. -/
def treehashx1 (fuel : Nat) (st : TreeHashState) : Option (Int × TreeHashState) :=
  treehashLoop A (UInt32.ofNat (2 ^ A.treeHeight - 1)) fuel 0 st

/-! ### The Merkle tree -/

/-- The index `gen_leaf` receives for leaf `j`: `j + idx_offset`. -/
def leafCall (j : Nat) : UInt32 := UInt32.ofNat (j + A.idxOffset.toNat)

/-- The Merkle tree under the address words `rest`: `node 0 j` is leaf `j + idx_offset`,
    and `node (h + 1) j` hashes nodes `2j` and `2j + 1` of height `h` under height `h + 1`
    and index `j + (idx_offset >> (h + 1))`. -/
def node (rest : List UInt32) : Nat → Nat → List UInt8
  | 0, j => (A.genLeaf (leafCall A j)).2
  | h + 1, j =>
    (A.thash ⟨rest, UInt32.ofNat (h + 1), UInt32.ofNat (j + (A.idxOffset.toNat >>> (h + 1)))⟩
      (node rest h (2 * j) ++ node rest h (2 * j + 1))).2

/-- The leaf indices the whole tree needs, in order. -/
def leafCalls : List UInt32 := (List.range (2 ^ A.treeHeight)).map (leafCall A)

/-! ### Leaf indices in binary -/

/-- Past the last leaf of a block of `2 ^ h` leaves, the block index steps by one. -/
theorem succ_div_of_dvd {i h : Nat} (hd : 2 ^ h ∣ i + 1) : (i + 1) / 2 ^ h = i / 2 ^ h + 1 := by
  rw [Nat.succ_div, if_pos hd]

theorem succ_div_of_not_dvd {i h : Nat} (hd : ¬ 2 ^ h ∣ i + 1) : (i + 1) / 2 ^ h = i / 2 ^ h := by
  rw [Nat.succ_div, if_neg hd, Nat.add_zero]

/-- At a leaf that ends a block of `2 ^ h`, the block ends one of `2 ^ (h + 1)` exactly when
    it is a right child. -/
theorem dvd_succ_iff_odd {i h : Nat} (hd : 2 ^ h ∣ i + 1) :
    2 ^ (h + 1) ∣ i + 1 ↔ i / 2 ^ h % 2 = 1 := by
  obtain ⟨q, hq⟩ := hd
  have h1 := succ_div_of_dvd ⟨q, hq⟩
  rw [hq, Nat.mul_div_cancel_left _ (by positivity)] at h1
  rw [pow_succ, hq, Nat.mul_dvd_mul_iff_left (by positivity)]
  omega

theorem odd_of_dvd_succ {i h k : Nat} (hk : h < k) (hd : 2 ^ k ∣ i + 1) : i / 2 ^ h % 2 = 1 :=
  (dvd_succ_iff_odd ((Nat.pow_dvd_pow 2 hk.le).trans hd)).1 ((Nat.pow_dvd_pow 2 hk).trans hd)

/-- The leaf that completes block `j` of `2 ^ h` leaves is in that block. -/
theorem div_eq_of_succ_eq {i h j : Nat} (he : (j + 1) * 2 ^ h = i + 1) : i / 2 ^ h = j := by
  have := succ_div_of_dvd (Dvd.intro_left _ he)
  rw [← he, Nat.mul_div_cancel _ (by positivity)] at this
  omega

/-! ### `uint32_t` indices -/

theorem uint32_toNat_ofNat {x : Nat} (hx : x < 2 ^ 32) : (UInt32.ofNat x).toNat = x :=
  Nat.mod_eq_of_lt hx

theorem uint32_eq_iff {x y : UInt32} : x = y ↔ x.toNat = y.toNat :=
  ⟨congrArg _, UInt32.toNat.inj⟩

theorem uint32_toNat_shiftRight_one (x : UInt32) : (x >>> 1).toNat = x.toNat / 2 := by
  show (x.toBitVec >>> ((1 : UInt32) % 32).toBitVec).toNat = _
  simp [BitVec.ushiftRight_eq', Nat.shiftRight_eq_div_pow]
  rfl

theorem uint32_ofNat_shiftRight_one {x : Nat} (hx : x < 2 ^ 32) :
    UInt32.ofNat x >>> 1 = UInt32.ofNat (x / 2) := by
  rw [uint32_eq_iff, uint32_toNat_shiftRight_one, uint32_toNat_ofNat hx,
    uint32_toNat_ofNat (by omega)]

theorem uint32_ofNat_and_one {x : Nat} (hx : x < 2 ^ 32) :
    UInt32.ofNat x &&& 1 = 0 ↔ x % 2 = 0 := by
  rw [uint32_eq_iff, UInt32.and_toNat, uint32_toNat_ofNat hx]
  show x &&& 1 = 0 ↔ _
  rw [Nat.and_one_is_mod]

theorem uint32_ofNat_xor {x y : Nat} (hx : x < 2 ^ 32) (hy : y < 2 ^ 32) :
    UInt32.ofNat x ^^^ UInt32.ofNat y = 1 ↔ x = y ^^^ 1 := by
  rw [uint32_eq_iff]
  show (UInt32.ofNat x).toNat ^^^ (UInt32.ofNat y).toNat = 1 ↔ _
  rw [uint32_toNat_ofNat hx, uint32_toNat_ofNat hy]
  constructor
  · rintro h; rw [← h, Nat.xor_comm x y, ← Nat.xor_assoc, Nat.xor_self, Nat.zero_xor]
  · rintro rfl; rw [Nat.xor_comm, ← Nat.xor_assoc, Nat.xor_self, Nat.zero_xor]

theorem uint32_ofNat_lt {x y : Nat} (hx : x < 2 ^ 32) (hy : y < 2 ^ 32) :
    UInt32.ofNat x < UInt32.ofNat y ↔ x < y := by
  show (UInt32.ofNat x).toNat < (UInt32.ofNat y).toNat ↔ _
  rw [uint32_toNat_ofNat hx, uint32_toNat_ofNat hy]

theorem uint32_ofNat_add (x : Nat) (y : UInt32) :
    UInt32.ofNat x + y = UInt32.ofNat (x + y.toNat) := by
  apply UInt32.toNat.inj
  show (x % 2 ^ 32 + y.toNat) % 2 ^ 32 = (x + y.toNat) % 2 ^ 32
  rw [Nat.mod_add_mod]

theorem uint32_ofNat_toNat (x : UInt32) : UInt32.ofNat x.toNat = x :=
  uint32_eq_iff.2 (uint32_toNat_ofNat x.toBitVec.isLt)

theorem uint32_ofNat_div_two {x : Nat} (hx : x < 2 ^ 32) :
    UInt32.ofNat x / 2 = UInt32.ofNat (x / 2) := by
  rw [uint32_eq_iff, UInt32.toNat_div, uint32_toNat_ofNat hx, uint32_toNat_ofNat (by omega)]
  rfl

theorem div_two_pow_div_two (x h : Nat) : x / 2 ^ h / 2 = x / 2 ^ (h + 1) := by
  rw [Nat.div_div_eq_div_mul, pow_succ]

/-- One step up: `internal_idx >>= 1` on `x / 2^h`. -/
theorem uint32_ofNat_div_shiftRight {x : Nat} (h : Nat) (hx : x < 2 ^ 32) :
    UInt32.ofNat (x / 2 ^ h) >>> 1 = UInt32.ofNat (x / 2 ^ (h + 1)) := by
  rw [uint32_ofNat_shiftRight_one (lt_of_le_of_lt (Nat.div_le_self _ _) hx), div_two_pow_div_two]

/-- The index `internal_idx / 2 + internal_idx_offset` the code gives a new node. -/
theorem uint32_treeIndex {x y : Nat} (h : Nat) (hx : x < 2 ^ 32) (hy : y < 2 ^ 32) :
    UInt32.ofNat (x / 2 ^ h) / (2 : UInt32) + UInt32.ofNat (y / 2 ^ h) >>> 1 =
      UInt32.ofNat (x / 2 ^ (h + 1) + (y >>> (h + 1))) := by
  rw [uint32_ofNat_div_shiftRight h hy, uint32_ofNat_div_two (lt_of_le_of_lt (Nat.div_le_self _ _) hx),
    div_two_pow_div_two, uint32_ofNat_add,
    uint32_toNat_ofNat (lt_of_le_of_lt (Nat.div_le_self _ _) hy), Nat.shiftRight_eq_div_pow]

/-! ### What the inner loop leaves alone -/

section Frame

variable (idx maxIdx : UInt32)

@[simp] theorem climb_stack (r : Nat) : ∀ h iIdx iLeaf iOff cur ret st,
    (climb A idx maxIdx r h iIdx iLeaf iOff cur ret st).state.stack = st.stack := by
  induction r with
  | zero => intros; rfl
  | succ r ih =>
    intro h iIdx iLeaf iOff cur ret st
    simp only [climb]
    split_ifs <;> simp [ih]

@[simp] theorem climb_calls (r : Nat) : ∀ h iIdx iLeaf iOff cur ret st,
    (climb A idx maxIdx r h iIdx iLeaf iOff cur ret st).state.calls = st.calls := by
  induction r with
  | zero => intros; rfl
  | succ r ih =>
    intro h iIdx iLeaf iOff cur ret st
    simp only [climb]
    split_ifs <;> simp [ih]

@[simp] theorem climb_rest (r : Nat) : ∀ h iIdx iLeaf iOff cur ret st,
    (climb A idx maxIdx r h iIdx iLeaf iOff cur ret st).state.treeAddr.rest = st.treeAddr.rest := by
  induction r with
  | zero => intros; rfl
  | succ r ih =>
    intro h iIdx iLeaf iOff cur ret st
    simp only [climb]
    split_ifs <;> simp [ih]

/-- The inner loop from height `h` writes `auth_path` only at heights `h` and above. -/
theorem climb_authPath_lt (r : Nat) : ∀ h iIdx iLeaf iOff cur ret st, ∀ h' < h,
    (climb A idx maxIdx r h iIdx iLeaf iOff cur ret st).state.authPath h' = st.authPath h' := by
  induction r with
  | zero => intros; rfl
  | succ r ih =>
    intro h iIdx iLeaf iOff cur ret st h' hh
    simp only [climb]
    split_ifs <;> simp (disch := omega) [ih, cmovAuthPath_authPath, hh.ne]

end Frame

/-! ### The invariants -/

section Spec

variable (rest : List UInt32)

/-- `stack_sp` before leaf `i`: at every height `h` where bit `h` of `i` is set, the left
    sibling `i / 2^h - 1` of the node leaf `i` climbs to. -/
def StackInv (i : Nat) (stack : Nat → List UInt8) : Prop :=
  ∀ h < A.treeHeight, i / 2 ^ h % 2 = 1 → stack h = node A rest h (i / 2 ^ h - 1)

/-- The index of the authentication node at height `h`: `(leaf_idx >> h) ^ 1`. -/
def authIdx (h : Nat) : Nat := (A.leafIdx.toNat >>> h) ^^^ 1

/-- `auth_path` before leaf `i`: every authentication node whose leaves all precede `i`. -/
def AuthInv (i : Nat) (ap : Nat → List UInt8) : Prop :=
  ∀ h < A.treeHeight, (authIdx A h + 1) * 2 ^ h ≤ i → ap h = node A rest h (authIdx A h)

/-- The inner loop for leaf `i` from height `h` carries `AuthInv` from `i` to `i + 1` at the
    heights from `h` up. -/
def AuthStep (h i : Nat) (ap ap' : Nat → List UInt8) : Prop :=
  ∀ h' < A.treeHeight, h ≤ h' →
    ((authIdx A h' + 1) * 2 ^ h' ≤ i → ap h' = node A rest h' (authIdx A h')) →
    (authIdx A h' + 1) * 2 ^ h' ≤ i + 1 → ap' h' = node A rest h' (authIdx A h')

/-- What the inner loop for leaf `i`, started at height `h` on `auth_path` `ap`, ends with:
    a `break` at a left child of height `h0` (a zero bit of `i`, every lower bit set)
    holding that node, or, unless a call failed, the root after the last leaf. -/
def ClimbEnd.Spec (i h : Nat) (ap : Nat → List UInt8) : ClimbEnd → Prop
  | .out ret st => 0 ≤ ret →
    i + 1 = 2 ^ A.treeHeight ∧ st.root = node A rest A.treeHeight 0 ∧ AuthStep A rest h i ap st.authPath
  | .left h0 cur st => h0 < A.treeHeight ∧ 2 ^ h0 ∣ i + 1 ∧ i / 2 ^ h0 % 2 = 0 ∧
    cur = node A rest h0 (i / 2 ^ h0) ∧ AuthStep A rest h i ap st.authPath

variable {A rest}

/-- The `cmov` at height `h` puts the authentication node in place once its last leaf is
    reached, and never writes anything else there. -/
theorem cmov_authStep {i h : Nat} {st : TreeHashState} {c : Prop} [Decidable c]
    (hc : c ↔ i / 2 ^ h = authIdx A h)
    (hold : (authIdx A h + 1) * 2 ^ h ≤ i → st.authPath h = node A rest h (authIdx A h))
    (hnew : (authIdx A h + 1) * 2 ^ h ≤ i + 1) :
    (cmovAuthPath st h (node A rest h (i / 2 ^ h)) c).authPath h = node A rest h (authIdx A h) := by
  rw [cmovAuthPath_authPath]
  by_cases hci : i / 2 ^ h = authIdx A h
  · simp [hc, hci]
  · rw [if_neg (by simp [hc, hci])]
    exact hold (Nat.le_of_lt_succ (lt_of_le_of_ne hnew fun he => hci (div_eq_of_succ_eq he)))

/-- `AuthStep` from height `h`, from `AuthStep` from `h + 1` after a step that writes only
    height `h`. -/
theorem authStep_of_succ {i h : Nat} {ap ap2 ap' : Nat → List UInt8}
    (hstep : AuthStep A rest (h + 1) i ap2 ap') (hframe : ∀ h', h < h' → ap2 h' = ap h')
    (hh : ap' h = ap2 h)
    (hlev : ((authIdx A h + 1) * 2 ^ h ≤ i → ap h = node A rest h (authIdx A h)) →
      (authIdx A h + 1) * 2 ^ h ≤ i + 1 → ap2 h = node A rest h (authIdx A h)) :
    AuthStep A rest h i ap ap' := by
  intro h' hh' hle hold hnew
  rcases Nat.eq_or_lt_of_le hle with rfl | hgt
  · rw [hh]; exact hlev hold hnew
  · exact hstep h' hh' hgt (fun hp => (hframe h' hgt).trans (hold hp)) hnew

theorem ClimbEnd.Spec.lift {i h : Nat} {ap ap2 : Nat → List UInt8} {e : ClimbEnd}
    (he : e.Spec A rest i (h + 1) ap2) (hframe : ∀ h', h < h' → ap2 h' = ap h')
    (hh : e.state.authPath h = ap2 h)
    (hlev : ((authIdx A h + 1) * 2 ^ h ≤ i → ap h = node A rest h (authIdx A h)) →
      (authIdx A h + 1) * 2 ^ h ≤ i + 1 → ap2 h = node A rest h (authIdx A h)) :
    e.Spec A rest i h ap := by
  cases e with
  | out ret st =>
    intro hr
    obtain ⟨h1, h2, h3⟩ := he hr
    exact ⟨h1, h2, authStep_of_succ h3 hframe hh hlev⟩
  | left h0 cur st =>
    obtain ⟨h1, h2, h3, h4, h5⟩ := he
    exact ⟨h1, h2, h3, h4, authStep_of_succ h5 hframe hh hlev⟩

/-- The inner loop, climbing from height `h` for leaf `i` with the node `i / 2^h` and the
    `uint32_t` indices the code holds there. -/
theorem climb_spec {i : Nat} (hi : i < 2 ^ A.treeHeight) (ht : A.treeHeight ≤ 31) (r : Nat) :
    ∀ h ret st, h + r = A.treeHeight → 2 ^ h ∣ i + 1 → StackInv A rest i st.stack →
      st.treeAddr.rest = rest →
      (climb A (UInt32.ofNat i) (UInt32.ofNat (2 ^ A.treeHeight - 1)) r h
        (UInt32.ofNat (i / 2 ^ h)) (UInt32.ofNat (A.leafIdx.toNat / 2 ^ h))
        (UInt32.ofNat (A.idxOffset.toNat / 2 ^ h)) (node A rest h (i / 2 ^ h)) ret st).Spec
        A rest i h st.authPath := by
  have h32 : 2 ^ A.treeHeight ≤ 2 ^ 31 := Nat.pow_le_pow_right (by decide) ht
  have hL : A.leafIdx.toNat < 2 ^ 32 := A.leafIdx.toBitVec.isLt
  have hO : A.idxOffset.toNat < 2 ^ 32 := A.idxOffset.toBitVec.isLt
  have hi32 : i < 2 ^ 32 := by omega
  induction r with
  | zero =>
    intro h ret st hh hd _ _ _
    obtain rfl : h = A.treeHeight := hh
    refine ⟨le_antisymm hi (Nat.le_of_dvd (Nat.succ_pos i) hd), ?_, fun h' hh' hle => by omega⟩
    simp [climb, Nat.div_eq_of_lt hi]
  | succ r ih =>
    intro h ret st hh hd hS hR
    have hlt : h < A.treeHeight := by omega
    have hc : i / 2 ^ h < 2 ^ 32 := by
      have := Nat.div_le_self i (2 ^ h); omega
    have hxor : UInt32.ofNat (i / 2 ^ h) ^^^ UInt32.ofNat (A.leafIdx.toNat / 2 ^ h) = 1 ↔
        i / 2 ^ h = authIdx A h := by
      rw [uint32_ofNat_xor hc (lt_of_le_of_lt (Nat.div_le_self _ _) hL), authIdx,
        Nat.shiftRight_eq_div_pow]
    have hbrk : (UInt32.ofNat (i / 2 ^ h) &&& 1 = 0 ∧
        UInt32.ofNat i < UInt32.ofNat (2 ^ A.treeHeight - 1)) ↔
        (i / 2 ^ h % 2 = 0 ∧ i < 2 ^ A.treeHeight - 1) := by
      rw [uint32_ofNat_and_one hc, uint32_ofNat_lt (by omega) (by omega)]
    simp only [climb]
    split_ifs with h1 h2
    · -- `break` at a left child
      obtain ⟨heven, -⟩ := hbrk.1 h1
      refine ⟨hlt, hd, heven, rfl, fun h' hh' hle hold hnew => ?_⟩
      rcases Nat.eq_or_lt_of_le hle with rfl | hgt
      · exact cmov_authStep hxor hold hnew
      · rw [cmovAuthPath_authPath, if_neg (by omega)]
        refine hold (Nat.le_of_lt_succ (lt_of_le_of_ne hnew fun he => ?_))
        have := odd_of_dvd_succ hgt (Dvd.intro_left _ he)
        omega
    · -- a failed `thash`
      intro hret; omega
    · -- the parent node, from the parked left sibling
      have hodd : i / 2 ^ h % 2 = 1 := by
        by_contra hne
        have : ¬ i < 2 ^ A.treeHeight - 1 := fun hl => h1 (hbrk.2 ⟨by omega, hl⟩)
        have := odd_of_dvd_succ hlt (show 2 ^ A.treeHeight ∣ i + 1 from ⟨1, by omega⟩)
        omega
      have hpair : st.stack h ++ node A rest h (i / 2 ^ h) =
          node A rest h (2 * (i / 2 ^ (h + 1))) ++ node A rest h (2 * (i / 2 ^ (h + 1)) + 1) := by
        rw [hS h hlt hodd, ← div_two_pow_div_two]
        congr 2 <;> omega
      simp only [setTreeAddr_treeAddr, setTreeAddr_stack, cmovAuthPath_treeAddr,
        cmovAuthPath_stack, hR, hpair, uint32_treeIndex h hi32 hO]
      simp only [uint32_ofNat_div_shiftRight h hi32, uint32_ofNat_div_shiftRight h hL,
        uint32_ofNat_div_shiftRight h hO]
      refine ClimbEnd.Spec.lift (ih (h + 1) _ _ (by omega) ((dvd_succ_iff_odd hd).2 hodd)
        (by simpa using hS) (by simpa using hR)) (fun h' hh' => ?_)
        (climb_authPath_lt A _ _ r _ _ _ _ _ _ _ h (by omega)) (fun hold hnew => ?_)
      · simp [cmovAuthPath_authPath, hh'.ne']
      · simpa using cmov_authStep hxor hold hnew

/-! ### The outer loop -/

/-- Parking the node of a `break` at height `h0` carries `StackInv` to the next leaf: the
    increment clears the bits below `h0` and sets bit `h0`. -/
theorem stackInv_succ {i h0 : Nat} {stack : Nat → List UInt8} (hS : StackInv A rest i stack)
    (hd : 2 ^ h0 ∣ i + 1) (he : i / 2 ^ h0 % 2 = 0) :
    StackInv A rest (i + 1) (Function.update stack h0 (node A rest h0 (i / 2 ^ h0))) := by
  intro h hh hodd
  rcases lt_trichotomy h h0 with hlt | rfl | hgt
  · -- below `h0` the bits of `i + 1` are clear
    have hd' : 2 ^ (h + 1) ∣ i + 1 := (Nat.pow_dvd_pow 2 hlt).trans hd
    have := (dvd_succ_iff_odd ((Nat.pow_dvd_pow 2 (by omega)).trans hd')).1 hd'
    rw [succ_div_of_dvd ((Nat.pow_dvd_pow 2 (by omega)).trans hd')] at hodd
    omega
  · rw [Function.update_same, succ_div_of_dvd hd, Nat.add_sub_cancel]
  · -- above `h0` the bits of `i + 1` are those of `i`
    have hnd : ¬ 2 ^ h ∣ i + 1 := fun hd' => by
      have := odd_of_dvd_succ hgt hd'
      omega
    rw [succ_div_of_not_dvd hnd] at hodd ⊢
    rw [Function.update_noteq hgt.ne', hS h hh hodd]

theorem authInv_succ {i : Nat} {ap ap' : Nat → List UInt8} (hA : AuthInv A rest i ap)
    (hstep : AuthStep A rest 0 i ap ap') : AuthInv A rest (i + 1) ap' :=
  fun h hh hp => hstep h hh (Nat.zero_le h) (hA h hh) hp

/-- Every authentication node's leaves precede `2 ^ tree_height`, for `leaf_idx` in the
    tree. -/
theorem authIdx_succ_mul_le (hL : A.leafIdx.toNat < 2 ^ A.treeHeight) {h : Nat}
    (hh : h < A.treeHeight) : (authIdx A h + 1) * 2 ^ h ≤ 2 ^ A.treeHeight := by
  have hsplit : 2 ^ A.treeHeight = 2 ^ (A.treeHeight - h) * 2 ^ h := by
    rw [← pow_add, Nat.sub_add_cancel hh.le]
  have hdiv : A.leafIdx.toNat >>> h < 2 ^ (A.treeHeight - h) := by
    rw [Nat.shiftRight_eq_div_pow]
    exact Nat.div_lt_of_lt_mul (by rwa [Nat.mul_comm, ← hsplit])
  have hxor : authIdx A h < 2 ^ (A.treeHeight - h) :=
    Nat.xor_lt_two_pow hdiv (Nat.one_lt_two_pow (by omega))
  calc (authIdx A h + 1) * 2 ^ h ≤ 2 ^ (A.treeHeight - h) * 2 ^ h := Nat.mul_le_mul_right _ hxor
    _ = 2 ^ A.treeHeight := hsplit.symm

/-- **The run lemma.**  From leaf `i`, with the invariants and enough fuel, the outer loop
    ends; the leaves it generates are a prefix of `i, i + 1, …, 2 ^ tree_height - 1`, all of
    them when it returns a code `≥ 0`, and then root and authentication path are the tree's. -/
theorem treehashLoop_spec (hL : A.leafIdx.toNat < 2 ^ A.treeHeight) (ht : A.treeHeight ≤ 31)
    (fuel : Nat) : ∀ i st, i < 2 ^ A.treeHeight → 2 ^ A.treeHeight ≤ i + fuel →
      StackInv A rest i st.stack → AuthInv A rest i st.authPath → st.treeAddr.rest = rest →
      ∃ r st', treehashLoop A (UInt32.ofNat (2 ^ A.treeHeight - 1)) fuel (UInt32.ofNat i) st =
          some (r, st') ∧
        st'.calls <+: st.calls ++ (List.range' i (2 ^ A.treeHeight - i)).map (leafCall A) ∧
        (0 ≤ r → st'.calls = st.calls ++ (List.range' i (2 ^ A.treeHeight - i)).map (leafCall A) ∧
          st'.root = node A rest A.treeHeight 0 ∧
          ∀ h < A.treeHeight, st'.authPath h = node A rest h (authIdx A h)) := by
  have h32 : 2 ^ A.treeHeight ≤ 2 ^ 31 := Nat.pow_le_pow_right (by decide) ht
  induction fuel with
  | zero => intro i st hi hf; omega
  | succ fuel ih =>
    intro i st hi hf hS hA hR
    have hrange : List.range' i (2 ^ A.treeHeight - i) =
        i :: List.range' (i + 1) (2 ^ A.treeHeight - (i + 1)) := by
      rw [← List.range'_succ]; congr 1; omega
    have hcall : UInt32.ofNat i + A.idxOffset = leafCall A i := uint32_ofNat_add _ _
    have hfirst : st.calls ++ [leafCall A i] <+:
        st.calls ++ (List.range' i (2 ^ A.treeHeight - i)).map (leafCall A) := by
      rw [hrange, List.map_cons]
      exact ⟨(List.range' (i + 1) (2 ^ A.treeHeight - (i + 1))).map (leafCall A), by simp⟩
    simp only [treehashLoop, hcall]
    split_ifs with hneg
    · exact ⟨_, _, rfl, hfirst, fun h => absurd h (by omega)⟩
    · have hclimb := climb_spec hi ht A.treeHeight 0 (A.genLeaf (leafCall A i)).1
        { st with calls := st.calls ++ [leafCall A i] } (by omega) (by simp) hS hR
      simp only [pow_zero, Nat.div_one, uint32_ofNat_toNat] at hclimb
      have hcalls := climb_calls A (UInt32.ofNat i) (UInt32.ofNat (2 ^ A.treeHeight - 1))
        A.treeHeight 0 (UInt32.ofNat i) A.leafIdx A.idxOffset (A.genLeaf (leafCall A i)).2
        (A.genLeaf (leafCall A i)).1 { st with calls := st.calls ++ [leafCall A i] }
      have hstack := climb_stack A (UInt32.ofNat i) (UInt32.ofNat (2 ^ A.treeHeight - 1))
        A.treeHeight 0 (UInt32.ofNat i) A.leafIdx A.idxOffset (A.genLeaf (leafCall A i)).2
        (A.genLeaf (leafCall A i)).1 { st with calls := st.calls ++ [leafCall A i] }
      have hrest := climb_rest A (UInt32.ofNat i) (UInt32.ofNat (2 ^ A.treeHeight - 1))
        A.treeHeight 0 (UInt32.ofNat i) A.leafIdx A.idxOffset (A.genLeaf (leafCall A i)).2
        (A.genLeaf (leafCall A i)).1 { st with calls := st.calls ++ [leafCall A i] }
      split
      next ret st' heq =>
        -- the root, after the last leaf
        simp only [heq, ClimbEnd.state_out] at hcalls
        rw [show node A rest 0 i = (A.genLeaf (leafCall A i)).2 from rfl, heq] at hclimb
        refine ⟨ret, st', rfl, hcalls ▸ hfirst, fun hr => ?_⟩
        obtain ⟨hlast, hroot, hstep⟩ := hclimb hr
        refine ⟨by simp [hcalls, hrange, ← hlast], hroot, fun h hh =>
          authInv_succ hA hstep h hh (hlast ▸ authIdx_succ_mul_le hL hh)⟩
      next h0 cur st' heq =>
        -- a left child: park it and go on with the next leaf
        simp only [heq, ClimbEnd.state_left] at hcalls hstack hrest
        rw [show node A rest 0 i = (A.genLeaf (leafCall A i)).2 from rfl, heq] at hclimb
        obtain ⟨hh0, hd, he, rfl, hstep⟩ := hclimb
        have hi1 : i + 1 < 2 ^ A.treeHeight := by
          by_contra hn
          have := odd_of_dvd_succ hh0 (show 2 ^ A.treeHeight ∣ i + 1 from ⟨1, by omega⟩)
          omega
        have hsucc : UInt32.ofNat i + 1 = UInt32.ofNat (i + 1) := uint32_ofNat_add i 1
        obtain ⟨r, st'', hrun, hpre, hok⟩ := ih (i + 1)
          { st' with stack := Function.update st'.stack h0 (node A rest h0 (i / 2 ^ h0)) } hi1 (by omega)
          (stackInv_succ (by simpa [hstack] using hS) hd he) (authInv_succ hA hstep)
          (by simpa [hR] using hrest)
        rw [hcalls, List.append_assoc, List.singleton_append, ← List.map_cons, ← hrange] at hpre hok
        exact ⟨r, st'', hsucc ▸ hrun, hpre, hok⟩

end Spec

variable {A}

/-- A tree of height 1 whose leaves and nodes are their indices' low bytes. -/
def treeHashArgsToy : TreeHashArgs where
  genLeaf x := (0, [x.toUInt8])
  thash a x := (0, a.treeIndex.toUInt8 :: x)
  leafIdx := 1
  idxOffset := 0
  treeHeight := 1

end Leancrypto.SlhDsa
